import AnimatedChart.Proofs.Timeline.Frames
import AnimatedChart.Terminal.Playback

/-!
# Playback stays on its timeline

Whatever moves a playback, its frame stays the timeline's frame at the player's clock and so points at keyframes
(`OnTimeline`), no look-up on the way fails (`run?_eq_some`), and a bar whose text can be held has as many cells as the
screen gives it (`cells_progressBar`).
-/

open List

namespace AnimatedChart.Terminal

open Json Spec Timeline

variable {m : Playback} {tl : Timeline} {width : Nat}

/-- What may happen to a playback. -/
inductive Move where
  | message (m : Message)
  /-- The player's wall-clock time goes on. -/
  | tick (dt : Float)
  /-- The player goes to a keyframe. -/
  | seek (value : Value)
deriving Inhabited

namespace Playback

def move (m : Playback) : Move → Playback
  | .message msg => m.update msg
  | .tick dt => { m with player := m.player.tick m.timeline dt }
  | .seek value => { m with player := m.player.seek m.timeline value }

def run (m : Playback) (moves : List Move) : Playback := moves.foldl move m

/-! ## Checked moves -/

def seek? (m : Playback) (i : Int) : Option Playback := do
  let value ← if i < 0 then none else m.timeline.keyframes[i.toNat]?
  let player ← m.player.seek? m.timeline value
  return { m with player }

/-- Moves so many keyframes on, by a division that cuts towards zero and is not defined without keyframes. -/
def step? (m : Playback) (delta : Int) : Option Playback :=
  let n : Int := m.timeline.keyframes.length
  if n = 0 then none else m.seek? ((((m.player.frame.index : Int) + delta).tmod n + n).tmod n)

def update? (m : Playback) : Message → Option Playback
  | .tick => if m.paused then some m else do return { m with player := ← m.player.tick? m.timeline m.tick.toMillis }
  | .resize width height => some (m.update (.resize width height))
  | .key k =>
    if k = " " then some { m with paused := !m.paused }
    else if k = "left" ∨ k = "h" then m.step? (-1)
    else if k = "right" ∨ k = "l" then m.step? 1
    else if k = "home" ∨ k = "0" then m.seek? 0
    else some m

def move? (m : Playback) : Move → Option Playback
  | .message msg => m.update? msg
  | .tick dt => do return { m with player := ← m.player.tick? m.timeline dt }
  | .seek value => do return { m with player := ← m.player.seek? m.timeline value }

def run? (m : Playback) (moves : List Move) : Option Playback := moves.foldlM move? m

theorem tmod_add_tmod (a : Int) {n : Int} (h : 0 < n) : (a.tmod n + n).tmod n = a % n := by
  have hnonneg : 0 ≤ a.tmod n + n := by
    have := Int.lt_tmod_of_pos a h
    omega
  rw [Int.tmod_eq_emod_of_nonneg hnonneg, Int.add_emod_right, Int.tmod_eq_emod]
  split
  · rw [Int.natCast_zero, Int.sub_zero, Int.emod_emod]
  · rw [Int.natAbs_of_nonneg (Int.le_of_lt h), Int.sub_emod_right, Int.emod_emod]

section

variable {m : Playback} (h : m.timeline.keyframes ≠ [])
include h

theorem seek?_eq_some {i : Nat} (hi : i < m.timeline.keyframes.length) : m.seek? i = some (m.seek i) := by
  have hvalue : m.timeline.keyframes[i]? = some (m.timeline.keyframeAt i) := by
    rw [getElem?_eq_getElem hi, keyframeAt, getD_eq_getElem _ _ hi]
  rw [seek?, if_neg (by omega), Int.toNat_natCast, hvalue]
  show (do let player ← m.player.seek? m.timeline _; _ : Option Playback) = _
  rw [Player.seek?_eq_some h]
  rfl

theorem step?_eq_some (delta : Int) : m.step? delta = some (m.step delta) := by
  have hlength : 0 < (m.timeline.keyframes.length : Int) := by
    have := length_pos_iff.mpr h
    omega
  have hne : (m.timeline.keyframes.length : Int) ≠ 0 := by omega
  have hnonneg := Int.emod_nonneg ((m.player.frame.index : Int) + delta) hne
  have hlt := Int.emod_lt_of_pos ((m.player.frame.index : Int) + delta) hlength
  unfold step? step
  dsimp only
  rw [if_neg hne, tmod_add_tmod _ hlength, ← Int.toNat_of_nonneg hnonneg]
  exact seek?_eq_some h (by omega)

theorem update?_eq_some (msg : Message) : m.update? msg = some (m.update msg) := by
  cases msg with
  | tick =>
    unfold update? update
    dsimp only
    rw [Player.tick?_eq_some h]
    split <;> rfl
  | resize width height => rfl
  | key k =>
    have hhome : m.seek? 0 = some (m.seek 0) := seek?_eq_some h (length_pos_iff.mpr h)
    unfold update? update
    dsimp only
    rw [step?_eq_some h, step?_eq_some h, hhome]
    repeat' split
    all_goals rfl

theorem move?_eq_some (a : Move) : m.move? a = some (m.move a) := by
  cases a with
  | message msg => exact update?_eq_some h msg
  | tick dt =>
    unfold move? move
    dsimp only
    rw [Player.tick?_eq_some h]
    rfl
  | seek value =>
    unfold move? move
    dsimp only
    rw [Player.seek?_eq_some h]
    rfl

end

/-! ## The invariant -/

/-- The playback shows a place of the timeline, on a screen that is wide enough. -/
structure OnTimeline (tl : Timeline) (m : Playback) : Prop where
  timeline_eq : m.timeline = tl
  frame_eq : m.player.frame = tl.frameAt m.player.clock
  current_eq : tl.keyframes[m.player.frame.index]? = some m.player.frame.current
  next_mem : m.player.frame.next ∈ tl.keyframes
  le_width : 20 ≤ m.width

theorem OnTimeline.of_frame (h : tl.keyframes ≠ []) (htimeline : m.timeline = tl)
    (hframe : m.player.frame = tl.frameAt m.player.clock) (hwidth : 20 ≤ m.width) : OnTimeline tl m where
  timeline_eq := htimeline
  frame_eq := hframe
  current_eq := hframe ▸ current_frameAt h m.player.clock
  next_mem := hframe ▸ next_frameAt_mem h m.player.clock
  le_width := hwidth

theorem onTimeline_start (h : tl.keyframes ≠ []) (name : String) (tick : Duration) :
    OnTimeline tl (start name tl tick) := .of_frame h rfl rfl (show 20 ≤ 60 by decide)

theorem OnTimeline.update (h : tl.keyframes ≠ []) (hm : OnTimeline tl m) (msg : Message) :
    OnTimeline tl (m.update msg) := by
  obtain rfl := hm.timeline_eq
  -- Every key that moves the player sets its clock, which sets its frame.
  have hseek : ∀ i, OnTimeline m.timeline (m.seek i) := fun i => .of_frame h rfl rfl hm.le_width
  cases msg with
  | tick =>
    unfold Playback.update
    dsimp only
    split
    · exact hm
    · exact .of_frame h rfl rfl hm.le_width
  | resize width height =>
    refine .of_frame h rfl hm.frame_eq ?_
    show 20 ≤ (max 20 (width - 10).toInt).toNat
    omega
  | key k =>
    unfold Playback.update
    dsimp only
    split
    · exact .of_frame h rfl hm.frame_eq hm.le_width
    · repeat' split
      all_goals first | exact hseek _ | exact hm

theorem OnTimeline.move (h : tl.keyframes ≠ []) (hm : OnTimeline tl m) (a : Move) : OnTimeline tl (m.move a) := by
  cases a with
  | message msg => exact hm.update h msg
  | tick _ | seek _ =>
    obtain rfl := hm.timeline_eq
    exact .of_frame h rfl rfl hm.le_width

theorem OnTimeline.run (h : tl.keyframes ≠ []) (hm : OnTimeline tl m) (moves : List Move) :
    OnTimeline tl (m.run moves) := by
  induction moves generalizing m with
  | nil => exact hm
  | cons a moves ih => exact ih (hm.move h a)

theorem run?_eq_some (h : tl.keyframes ≠ []) (hm : OnTimeline tl m) (moves : List Move) :
    m.run? moves = some (m.run moves) := by
  induction moves generalizing m with
  | nil => rfl
  | cons a moves ih =>
    have hfirst : m.move? a = some (m.move a) := move?_eq_some (hm.timeline_eq ▸ h) a
    have hrest := ih (hm.move h a)
    rw [run?, foldlM_cons, hfirst]
    exact hrest

/-! ## The bar -/

theorem filledCells_le (v total : Float) (width : Nat) : filledCells v total width ≤ width := by
  unfold filledCells
  dsimp only
  split
  · exact Nat.min_le_right _ _
  · exact Nat.zero_le _

theorem cellsFrom_plain {cs : List Char} (h : ∀ c ∈ cs, Sign.start c = .complete 1) (n : Nat) :
    cellsFrom (.complete n) cs = n + cs.length := by
  induction cs generalizing n with
  | nil => rfl
  | cons c cs ih =>
    have hc : Sign.start c = .complete 1 := h c mem_cons_self
    have hcs := ih (fun c' hc' => h c' (mem_cons_of_mem _ hc')) 1
    show n + cellsFrom (.start c) cs = _
    rw [hc, hcs, length_cons]
    omega

theorem cells_bar (n k : Nat) : cells (times n '█' ++ times k '░') = n + k := by
  have hfull : Sign.start '█' = .complete 1 := by decide +kernel
  have hempty : Sign.start '░' = .complete 1 := by decide +kernel
  unfold cells times
  rw [String.toList_append, String.toList_ofList, String.toList_ofList, cellsFrom_plain]
  · simp
  · intro c hc
    rcases mem_append.mp hc with hc | hc
    · exact eq_of_mem_replicate hc ▸ hfull
    · exact eq_of_mem_replicate hc ▸ hempty

theorem cells_progressBar (v total : Float) (h : 3 * width ≤ maxTextSize) :
    ∃ bar, progressBar v total width = .ok bar ∧ cells bar = width := by
  have hle := filledCells_le v total width
  have hfull : repeated (filledCells v total width) '█' = .ok (times (filledCells v total width) '█') :=
    if_pos (by rw [show '█'.utf8Size = 3 from by decide]; omega)
  have hempty : repeated (width - filledCells v total width) '░'
      = .ok (times (width - filledCells v total width) '░') :=
    if_pos (by rw [show '░'.utf8Size = 3 from by decide]; omega)
  refine ⟨_, by rw [progressBar, hfull, hempty]; rfl, ?_⟩
  rw [cells_bar]
  omega

theorem progressBar_of_lt {v total : Float} (h : maxTextSize < 3 * (width - filledCells v total width)) :
    progressBar v total width = .error .fatal := by
  have hempty : repeated (width - filledCells v total width) '░' = .error .fatal :=
    if_neg (by rw [show '░'.utf8Size = 3 from by decide]; omega)
  rw [progressBar, hempty]
  unfold repeated
  split <;> rfl

theorem exists_view {bar : String} (h : progressBar m.player.frame.clock m.timeline.duration m.width = .ok bar) :
    ∃ screen, m.view = .ok screen := by
  unfold view
  dsimp only
  rw [h]
  exact ⟨_, rfl⟩

/-! ## Every run -/

/-- Playback never leaves its timeline. Whatever the moves, no keyframe and no control point is looked up in vain, the
latter in whatever segment the arithmetic ends up; the playback is on its timeline; and the bar has as many cells as the
screen gives it, as long as its text can be held. -/
theorem playback_on_timeline {time : Option TimeEncoding} {driver : Option Selection} {rows : List Row} {tl : Timeline}
    (h : Timeline.build time driver rows = .ok tl) (name : String) (tick : Duration) (moves : List Move) :
    let m := (start name tl tick).run moves
    (start name tl tick).run? moves = some m ∧ OnTimeline tl m ∧
      (∀ points, tl.ease = .curve points → ∀ i u, ∃ x, segment? points i u = some x) ∧
      (3 * m.width ≤ maxTextSize →
        (∃ bar, progressBar m.player.frame.clock tl.duration m.width = .ok bar ∧ cells bar = m.width) ∧
          ∃ screen, m.view = .ok screen) := by
  intro m
  obtain ⟨hease, hkeyframes, -⟩ := build_eq_ok h
  have hstart := onTimeline_start hkeyframes name tick
  have hm : OnTimeline tl m := hstart.run hkeyframes moves
  refine ⟨run?_eq_some hkeyframes hstart moves, hm, ?_, ?_⟩
  · intro points hcurve i u
    exact exists_segment (Ease.points_ne_nil (hcurve ▸ hease)) i u
  · intro hwidth
    obtain ⟨bar, hbar, hcells⟩ := cells_progressBar m.player.frame.clock tl.duration hwidth
    exact ⟨⟨bar, hbar, hcells⟩, exists_view (hm.timeline_eq ▸ hbar)⟩

def seasons : TimeEncoding where
  field := "season"
  scale := some { type := "band", domain := [.string "spring", .string "autumn"] }
  key := some (.field "id" (some true))

def swing : Selection where
  name := "swing"
  select := { easing := some (.curve [0, 1.5, 1]) }

def seasonClock : Timeline where
  field := "season"
  type := "band"
  keyframes := [.string "spring", .string "autumn"]
  duration := 0 + 500 * Float.ofNat 2
  loop := true
  ease := .curve [0, 1.5, 1]
  pauses := []
  geometry := .bands 0 500

theorem build_seasons : Timeline.build (some seasons) (some swing) [] = .ok seasonClock := by rfl

theorem playback_on_seasonClock :
    let m := (start "seasons" seasonClock (.milliseconds 100)).run
      [.message (.resize 0 0), .tick (0 / 0), .message (.key "left"), .tick (-1 / 0), .seek .null]
    OnTimeline seasonClock m ∧ m.width = 20 ∧
      ∃ bar, progressBar m.player.frame.clock seasonClock.duration m.width = .ok bar ∧ cells bar = m.width := by
  intro m
  obtain ⟨-, hm, -, hbar⟩ := playback_on_timeline build_seasons "seasons" (.milliseconds 100)
    [.message (.resize 0 0), .tick (0 / 0), .message (.key "left"), .tick (-1 / 0), .seek .null]
  exact ⟨hm, by decide +kernel, (hbar (by decide +kernel)).1⟩

/-- In a window that is wide beyond measure the bar is too long to be held, and there is no screen. -/
theorem view_wide_window :
    let m := (start "seasons" seasonClock (.milliseconds 100)).run [.message (.resize 9000000000000000000 24)]
    progressBar m.player.frame.clock m.timeline.duration m.width = .error .fatal ∧ m.view = .error .fatal := by
  intro m
  have hbar : progressBar m.player.frame.clock m.timeline.duration m.width = .error .fatal :=
    progressBar_of_lt (by decide +kernel)
  refine ⟨hbar, ?_⟩
  unfold view
  dsimp only
  rw [hbar]
  rfl

end Playback
end AnimatedChart.Terminal
