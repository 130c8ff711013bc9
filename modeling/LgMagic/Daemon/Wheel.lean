import LgMagic.Daemon.Pipeline
import LgMagic.Lib.Transition

/-!
# The wheel over a run

The wheel goes through an accumulator: each frame adds its steps times the scroll speed, whole
clicks go out, and the rest stays for the next frame, also when a new configuration changes the
speed. Over exact numbers nothing is lost or made up: the clicks so far and the rest together are
what the frames asked for.

* `WheelLedger`, `wheelSystem`: the pipeline with what went in and out, action after action;
* `pipelineWheel_spec`: what one frame sends and keeps;
* `Balanced`, `inductive_balanced`: the invariant;
* `balanced_wheelSystem`: the account of every run.
-/

namespace Daemon

open CString InputCore Pointer Profiles

/-! ## Accounts -/

/-- The sum of the values of the relative events with a code. -/
def relSum (code : ℕ) (evs : List InputEvent) : ℤ :=
  ((evs.filter fun ev => ev.type = evRel ∧ ev.code = code).map (·.value)).sum

/-- The pipeline of a remote, with the clicks that went out and the movement that was asked for. -/
structure WheelLedger where
  pipeline : Pipeline ℚ
  clicks : ℤ
  hiRes : ℤ
  /-- The sum of the steps times the scroll speed in force at their frame. -/
  asked : ℚ

/-- What happens to the pipeline of a remote. -/
inductive WheelAction
  | keyboard (f : EvdevFrame)
  | imu (f : EvdevFrame)
  | configure (calibLoad : CStr → Except Bytes (Calib ℚ)) (dc : DeviceConfig ℚ) (calibPath : CStr)
      (gcfg : GlobalConfig ℚ) (kbdUinput : ℤ)

/-- The range of a scroll speed. -/
def ScrollSpeedInRange (speed : ℚ) : Prop := 0 < speed ∧ speed ≤ 100

/-- The range of the steps of a frame. -/
def WheelInRange (wheel : ℤ) : Prop := -128 ≤ wheel ∧ wheel ≤ 127

/-- The steps of a frame are in the range of a byte, and the speeds in that of a profile. -/
def WheelAction.Allowed : WheelAction → Prop
  | .keyboard f => WheelInRange f.wheel
  | .imu _ => True
  | .configure _ dc _ _ _ => ScrollSpeedInRange (resolveProfile dc).scrollSpeed

/-- One action. -/
def wheelStep (s : WheelLedger) : WheelAction → WheelLedger
  | .keyboard f =>
    let r := pipelineKeyboard s.pipeline f
    { pipeline := r.1
      clicks := s.clicks + relSum relWheel r.2.mouse
      hiRes := s.hiRes + relSum relWheelHiRes r.2.mouse
      asked := s.asked + f.wheel * s.pipeline.active.scrollSpeed }
  | .imu f => { s with pipeline := (pipelineImu s.pipeline f).1 }
  | .configure calibLoad dc calibPath gcfg kbdUinput =>
    { s with pipeline := (pipelineConfigure calibLoad s.pipeline dc calibPath gcfg kbdUinput).2.1 }

/-- The pipeline from `pipeline_init` on. -/
def wheelSystem : TransitionSystem WheelLedger WheelAction where
  init s := s = ⟨pipelineInit, 0, 0, 0⟩
  step s l s' := l.Allowed ∧ s' = wheelStep s l

/-! ## One frame -/

section

variable {p : Pipeline ℚ} {f : EvdevFrame}

/-- The value that a frame converts to clicks. -/
def wheelSum (p : Pipeline ℚ) (wheel : ℤ) : ℚ := p.wheelAccum + wheel * p.active.scrollSpeed

/-- The keys of a frame do not touch the wheel. -/
theorem wheel_foldl_pipelineKey (keys : List KeyEvent) (kbd : List InputEvent) (p : Pipeline ℚ) :
    let r := keys.foldl (fun (p, kbd) e =>
      let (p, virt) := pipelineKey p e
      (p, kbd ++ uinputKey virt e.value)) (p, kbd)
    r.1.wheelAccum = p.wheelAccum ∧ r.1.active = p.active := by
  induction keys generalizing p kbd with
  | nil => exact ⟨rfl, rfl⟩
  | cons e keys ih =>
    have haccum : (pipelineKey p e).1.wheelAccum = p.wheelAccum := by
      unfold pipelineKey
      split <;> split_ifs <;> rfl
    obtain ⟨hkeys, hactive⟩ := ih (kbd ++ uinputKey (pipelineKey p e).2 e.value) (pipelineKey p e).1
    exact ⟨hkeys.trans haccum, hactive.trans (pipelineKey_active p e)⟩

/-- What a frame does to the mouse is what its wheel does. -/
theorem pipelineKeyboard_eq_pipelineWheel (p : Pipeline ℚ) (f : EvdevFrame) :
    ∃ q : Pipeline ℚ, q.wheelAccum = p.wheelAccum ∧ q.active = p.active ∧
      (pipelineKeyboard p f).1 = (pipelineWheel q f.wheel).1 ∧
      (pipelineKeyboard p f).2.mouse = (pipelineWheel q f.wheel).2 := by
  obtain ⟨haccum, hactive⟩ := wheel_foldl_pipelineKey f.keys [] p
  exact ⟨_, haccum, hactive, rfl, rfl⟩

/-- What `uinput_scroll` sends for some clicks, with their value in high resolution. -/
theorem relSum_uinputScroll (clicks : ℤ) :
    relSum relWheel (uinputScroll clicks (clicks * 120)) = clicks ∧
      relSum relWheelHiRes (uinputScroll clicks (clicks * 120)) = 120 * clicks := by
  rcases eq_or_ne clicks 0 with rfl | hne
  · exact ⟨rfl, rfl⟩
  · have hhiRes : clicks * 120 ≠ 0 := by omega
    constructor
    · simp [relSum, uinputScroll, hne, relWheel, relWheelHiRes, evRel, evSyn]
    · simp [relSum, uinputScroll, hne, relWheel, relWheelHiRes, evRel, evSyn, mul_comm]

/-- A wheel splits the sum into whole clicks, which go out, and the rest, which it keeps. -/
theorem pipelineWheel_spec (p : Pipeline ℚ) (wheel : ℤ) (haccum : |p.wheelAccum| < 1) :
    let r := pipelineWheel p wheel
    let clicks := relSum relWheel r.2
    clicks + r.1.wheelAccum = wheelSum p wheel ∧ |r.1.wheelAccum| < 1 ∧
      relSum relWheelHiRes r.2 = 120 * clicks ∧ |(clicks : ℚ)| ≤ |wheelSum p wheel| := by
  rcases eq_or_ne wheel 0 with rfl | hne
  · have hsum : wheelSum p 0 = p.wheelAccum := by simp [wheelSum]
    rw [hsum, pipelineWheel, if_pos rfl]
    refine ⟨?_, haccum, rfl, ?_⟩
    · simp [relSum]
    · simp [relSum]
  · set clicks : ℤ := CArith.toInt (wheelSum p wheel) with hclicks
    have hwheel : pipelineWheel p wheel = ({ p with wheelAccum := wheelSum p wheel - clicks },
        if clicks ≠ 0 then uinputScroll clicks (clicks * 120) else []) := by
      rw [pipelineWheel, if_neg hne]
      rfl
    -- no clicks go out where the sum holds none
    have hsent : relSum relWheel (pipelineWheel p wheel).2 = clicks ∧
        relSum relWheelHiRes (pipelineWheel p wheel).2 = 120 * clicks := by
      rw [hwheel]
      dsimp only
      split_ifs with hzero
      · exact relSum_uinputScroll clicks
      · rw [not_not.mp hzero]
        exact ⟨rfl, rfl⟩
    intro r sent
    rw [show sent = clicks from hsent.1]
    refine ⟨?_, ?_, hsent.2, abs_toInt_le _⟩
    · rw [show r.1.wheelAccum = wheelSum p wheel - clicks by rw [show r = _ from hwheel]]
      ring
    · rw [show r.1.wheelAccum = wheelSum p wheel - clicks by rw [show r = _ from hwheel]]
      exact abs_sub_toInt_lt _

/-- What a frame asks for is far inside the range of `int`, also in high resolution. -/
theorem abs_wheelSum_le (haccum : |p.wheelAccum| < 1) {wheel : ℤ} (hwheel : WheelInRange wheel)
    (hspeed : ScrollSpeedInRange p.active.scrollSpeed) : |wheelSum p wheel| ≤ 12801 := by
  obtain ⟨hlo, hhi⟩ := hwheel
  obtain ⟨hpos, hle⟩ := hspeed
  have hsteps : |(wheel : ℚ)| ≤ 128 := by
    rw [abs_le]
    constructor
    · exact_mod_cast hlo
    · exact_mod_cast hhi.trans (by norm_num)
  calc |wheelSum p wheel| ≤ |p.wheelAccum| + |(wheel : ℚ) * p.active.scrollSpeed| := abs_add_le _ _
    _ = |p.wheelAccum| + |(wheel : ℚ)| * p.active.scrollSpeed := by rw [abs_mul, abs_of_pos hpos]
    _ ≤ 1 + 128 * 100 := by gcongr
    _ = 12801 := by norm_num

end

/-! ## Runs -/

/-- The account is balanced. -/
structure Balanced (s : WheelLedger) : Prop where
  account : s.clicks + s.pipeline.wheelAccum = s.asked
  rest : |s.pipeline.wheelAccum| < 1
  hiRes : s.hiRes = 120 * s.clicks
  speed : ScrollSpeedInRange s.pipeline.active.scrollSpeed

theorem Balanced.keyboard {s : WheelLedger} (h : Balanced s) (f : EvdevFrame) :
    Balanced (wheelStep s (.keyboard f)) := by
  -- the keys of the frame leave the wheel alone
  obtain ⟨q, haccum, hactive, hpipeline, hmouse⟩ := pipelineKeyboard_eq_pipelineWheel s.pipeline f
  obtain ⟨hsplit, hrest, hhiRes, -⟩ := pipelineWheel_spec q f.wheel (by rw [haccum]; exact h.rest)
  have hsum : wheelSum q f.wheel = wheelSum s.pipeline f.wheel := by
    rw [wheelSum, wheelSum, haccum, hactive]
  have haccount := h.account
  have hprevious := h.hiRes
  refine ⟨?_, ?_, ?_, ?_⟩
  · simp only [wheelStep, hpipeline, hmouse]
    rw [hsum, wheelSum] at hsplit
    push_cast
    linarith
  · simpa only [wheelStep, hpipeline] using hrest
  · simp only [wheelStep, hmouse]
    linarith
  · have hspeed : (pipelineWheel q f.wheel).1.active = s.pipeline.active :=
      (pipelineWheel_active q f.wheel).trans hactive
    simpa only [wheelStep, hpipeline, hspeed] using h.speed

/-- A step of the pipeline that keeps the rest and moves no wheel. -/
theorem Balanced.of_kept {s : WheelLedger} (h : Balanced s) {p : Pipeline ℚ}
    (haccum : p.wheelAccum = s.pipeline.wheelAccum) (hspeed : ScrollSpeedInRange p.active.scrollSpeed) :
    Balanced { s with pipeline := p } := by
  refine ⟨?_, ?_, h.hiRes, hspeed⟩
  · simpa only [haccum] using h.account
  · simpa only [haccum] using h.rest

/-- The samples of the IMU leave the wheel alone. -/
theorem Balanced.imu {s : WheelLedger} (h : Balanced s) (f : EvdevFrame) :
    Balanced (wheelStep s (.imu f)) := by
  have hkept : (pipelineImu s.pipeline f).1.wheelAccum = s.pipeline.wheelAccum ∧
      (pipelineImu s.pipeline f).1.active = s.pipeline.active := by
    rw [pipelineImu]
    split_ifs <;> exact ⟨rfl, rfl⟩
  exact h.of_kept hkept.1 (hkept.2 ▸ h.speed)

/-- A new configuration keeps the rest, whether its calibration can be read or not. -/
theorem Balanced.configure {s : WheelLedger} (h : Balanced s)
    (calibLoad : CStr → Except Bytes (Calib ℚ)) {dc : DeviceConfig ℚ} (calibPath : CStr)
    (gcfg : GlobalConfig ℚ) (kbdUinput : ℤ)
    (hspeed : ScrollSpeedInRange (resolveProfile dc).scrollSpeed) :
    Balanced (wheelStep s (.configure calibLoad dc calibPath gcfg kbdUinput)) := by
  have hkept : let p := (pipelineConfigure calibLoad s.pipeline dc calibPath gcfg kbdUinput).2.1
      p.wheelAccum = s.pipeline.wheelAccum ∧ p.active = resolveProfile dc := by
    rw [pipelineConfigure]
    by_cases hpath : calibPath = .empty
    · rw [if_pos hpath]
      exact ⟨rfl, rfl⟩
    · rw [if_neg hpath]
      cases calibLoad calibPath <;> exact ⟨rfl, rfl⟩
  apply h.of_kept hkept.1
  rw [hkept.2]
  exact hspeed

/-- Every action keeps the account balanced. -/
theorem inductive_balanced : wheelSystem.Inductive Balanced where
  init s h := by
    obtain rfl : s = ⟨pipelineInit, 0, 0, 0⟩ := h
    exact ⟨by norm_num [pipelineInit, CNum.ofRat], by norm_num [pipelineInit, CNum.ofRat], rfl,
      by norm_num [ScrollSpeedInRange, pipelineInit, profileInit, CNum.ofRat]⟩
  step s l s' h hstep := by
    obtain ⟨hallowed, rfl⟩ := hstep
    cases l with
    | keyboard f => exact h.keyboard f
    | imu f => exact h.imu f
    | configure calibLoad dc calibPath gcfg kbdUinput =>
      exact h.configure calibLoad calibPath gcfg kbdUinput hallowed

/-- In every run, over exact numbers: the clicks that went out and the rest are what the frames asked
for at the speed of their time, the rest is less than a click, the value in high resolution is `120`
times the clicks, and what the next frame converts or computes as an integer fits. -/
theorem balanced_wheelSystem {s : WheelLedger} (h : wheelSystem.Reachable s) :
    s.clicks + s.pipeline.wheelAccum = s.asked ∧ |s.pipeline.wheelAccum| < 1 ∧
      s.hiRes = 120 * s.clicks ∧
      ∀ f : EvdevFrame, WheelInRange f.wheel →
        let mouse := (pipelineKeyboard s.pipeline f).2.mouse
        FitsInt (wheelSum s.pipeline f.wheel) ∧ FitsInt (120 * relSum relWheel mouse) ∧
          relSum relWheelHiRes mouse = 120 * relSum relWheel mouse := by
  obtain ⟨haccount, hrest, hhiRes, hspeed⟩ := h.of_inductive inductive_balanced
  refine ⟨haccount, hrest, hhiRes, fun f hwheel => ?_⟩
  intro mouse
  obtain ⟨q, haccum, hactive, -, hmouse⟩ := pipelineKeyboard_eq_pipelineWheel s.pipeline f
  obtain ⟨-, -, hhiRes, hclicks⟩ := pipelineWheel_spec q f.wheel (by rw [haccum]; exact hrest)
  rw [← hmouse] at hhiRes hclicks
  have hsum : wheelSum q f.wheel = wheelSum s.pipeline f.wheel := by
    rw [wheelSum, wheelSum, haccum, hactive]
  rw [hsum] at hclicks
  have hbound := abs_wheelSum_le hrest hwheel hspeed
  refine ⟨fitsInt_of_abs_le (hbound.trans (by norm_num)), fitsInt_of_abs_le ?_, hhiRes⟩
  rw [abs_mul, abs_of_pos (by norm_num : (0 : ℚ) < 120)]
  calc (120 : ℚ) * |(relSum relWheel mouse : ℚ)| ≤ 120 * 12801 := by
        have := hclicks.trans hbound
        gcongr
    _ ≤ 2 ^ 31 - 1 := by norm_num

/-- A run with a change of the speed between two frames: three halves, then a quarter against it. -/
theorem balanced_wheelSystem_change :
    let profile (speed : ℚ) : Profile ℚ :=
      ⟨.lit "default", speed, 30, -1, true, false, false, []⟩
    let dc (speed : ℚ) : DeviceConfig ℚ := ⟨.lit "default", none, true, false, [profile speed]⟩
    let configure (speed : ℚ) : WheelAction :=
      .configure (fun _ => .error []) (dc speed) .empty ⟨1 / 5, true, 60, 400⟩ 3
    let turn (wheel : ℤ) : WheelAction := .keyboard ⟨[], wheel, ⟨0, 0, 0⟩, ⟨0, 0, 0⟩, by decide⟩
    let s := [configure (1 / 2), turn 3, configure (1 / 4), turn (-1)].foldl wheelStep
      ⟨pipelineInit, 0, 0, 0⟩
    s.clicks + s.pipeline.wheelAccum = 5 / 4 := by
  intro profile dc configure turn s
  have hspeed (speed : ℚ) (h : ScrollSpeedInRange speed) : (configure speed).Allowed := h
  have hturn (wheel : ℤ) (h : WheelInRange wheel) : (turn wheel).Allowed := h
  have hreach : wheelSystem.Reachable s :=
    .step _ (.step _ (.step _ (.step _ (.init rfl)
      ⟨hspeed (1 / 2) (by norm_num [ScrollSpeedInRange]), rfl⟩)
      ⟨hturn 3 (by norm_num [WheelInRange]), rfl⟩)
      ⟨hspeed (1 / 4) (by norm_num [ScrollSpeedInRange]), rfl⟩)
      ⟨hturn (-1) (by norm_num [WheelInRange]), rfl⟩
  refine (balanced_wheelSystem hreach).1.trans ?_
  decide +kernel

end Daemon
