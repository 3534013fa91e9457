import Mathlib.Algebra.Order.Ring.Int
import OCRemote.Lib.CachedOutput

/-! The processes that make a request only for another value than the previous one: the redstone
emitter (`redstone.rs`) and the two reactors that are switched or have their rods set
(`reactor.rs`). The cache is `prev_value`, `prev_on` and `prev_rod`, the device what the component
puts out. -/

namespace OCRemote
open CachedOutput

/-- What the reactors do with floating-point numbers. `toPercent` rounds to a whole percentage. -/
structure Float64 (ν : Type) where
  zero : ν
  energyMax : ν
  div : ν → ν → ν
  lt : ν → ν → Bool
  toPercent : ν → ℤ

/-! The redstone emitter. -/

def emitWhenWantItem {φ κ : Type} (off on : ℤ) (getPriority : φ → Option κ) (factory : φ) : ℤ :=
  if (getPriority factory).isSome then on else off

structure RedstoneEmitterConfig (φ : Type) where
  output : φ → ℤ

namespace RedstoneEmitterProcess

/-- What a cycle finds, and how a request that it makes ends. -/
structure Cycle (φ : Type) where
  factory : φ
  outcome : Outcome

def run {φ : Type} (cfg : RedstoneEmitterConfig φ) (s : CachedOutput.State ℤ) (c : Cycle φ) :
    CachedOutput.State ℤ × Bool :=
  let value := cfg.output c.factory
  if some value = s.cache then (s, true) else request s value c.outcome

def want {φ : Type} (cfg : RedstoneEmitterConfig φ) (c : Cycle φ) : Want ℤ :=
  .value (cfg.output c.factory)

theorem run_eq_cycle {φ : Type} (cfg : RedstoneEmitterConfig φ) (s : CachedOutput.State ℤ)
    (c : Cycle φ) :
    run cfg s c = cycle s (want cfg c) c.outcome := by
  simp only [run, want, cycle, eq_comm]

end RedstoneEmitterProcess

/-! The reactors. -/

/-- What a cycle finds: the stored cyanite and the answers to the requests for a reading. -/
structure ReactorCycle (ν : Type) where
  nCyanite : ℤ
  answer : String → Option ν
  outcome : Outcome

/-- `run_reactor`, up to the reading. No value means that a request failed. -/
def runReactor {ν : Type} (f : Float64 ν) (nCyaniteWanted : ℤ) (hasTurbine : Bool)
    (c : ReactorCycle ν) : Option ν :=
  if 0 < nCyaniteWanted ∧ c.nCyanite < nCyaniteWanted then some f.zero
  else if hasTurbine then
    match c.answer "getHotFluidAmount", c.answer "getHotFluidAmountMax" with
    | some amount, some max => some (f.div amount max)
    | _, _ => none
  else (c.answer "getEnergyStored").map fun energy => f.div energy f.energyMax

structure HysteresisReactorConfig (ν : Type) where
  nCyaniteWanted : ℤ
  hasTurbine : Bool
  lowerBound : ν
  upperBound : ν

namespace HysteresisReactorProcess
variable {ν : Type} (f : Float64 ν) (cfg : HysteresisReactorConfig ν)

/-- No value between the bounds. -/
def on (pv : ν) : Option Bool :=
  if f.lt pv cfg.lowerBound then some true
  else if f.lt cfg.upperBound pv then some false
  else none

def run (s : CachedOutput.State Bool) (c : ReactorCycle ν) : CachedOutput.State Bool × Bool :=
  match runReactor f cfg.nCyaniteWanted cfg.hasTurbine c with
  | none => (s, false)
  | some pv =>
    match on f cfg pv with
    | none => (s, true)
    | some on => if s.cache = some on then (s, true) else request s on c.outcome

def want (c : ReactorCycle ν) : Want Bool :=
  match runReactor f cfg.nCyaniteWanted cfg.hasTurbine c with
  | none => .unknown
  | some pv => (on f cfg pv).elim .anything .value

theorem run_eq_cycle (s : CachedOutput.State Bool) (c : ReactorCycle ν) :
    run f cfg s c = cycle s (want f cfg c) c.outcome := by
  unfold run want
  cases runReactor f cfg.nCyaniteWanted cfg.hasTurbine c with
  | none => rfl
  | some pv =>
    simp only
    cases on f cfg pv <;> rfl

end HysteresisReactorProcess

structure ProportionalReactorConfig where
  nCyaniteWanted : ℤ
  hasTurbine : Bool

namespace ProportionalReactorProcess
variable {ν : Type} (f : Float64 ν) (cfg : ProportionalReactorConfig)

def run (s : CachedOutput.State ℤ) (c : ReactorCycle ν) : CachedOutput.State ℤ × Bool :=
  match runReactor f cfg.nCyaniteWanted cfg.hasTurbine c with
  | none => (s, false)
  | some pv =>
    let rod := f.toPercent pv
    if s.cache = some rod then (s, true) else request s rod c.outcome

def want (c : ReactorCycle ν) : Want ℤ :=
  match runReactor f cfg.nCyaniteWanted cfg.hasTurbine c with
  | none => .unknown
  | some pv => .value (f.toPercent pv)

theorem run_eq_cycle (s : CachedOutput.State ℤ) (c : ReactorCycle ν) :
    run f cfg s c = cycle s (want f cfg c) c.outcome := by
  unfold run want
  cases runReactor f cfg.nCyaniteWanted cfg.hasTurbine c <;> rfl

end ProportionalReactorProcess

/-- As long as no answer to a request is lost while the cache holds another value, every cycle that
ends well leaves the device with the value that it wants; the first such loss ends this. -/
theorem cached_outputs_fresh {φ ν : Type} (f : Float64 ν) :
    (∀ (cfg : RedstoneEmitterConfig φ) device cs,
      AllAnswered (RedstoneEmitterProcess.run cfg) (RedstoneEmitterProcess.want cfg)
        RedstoneEmitterProcess.Cycle.outcome device cs →
      NeverStale (RedstoneEmitterProcess.run cfg) (RedstoneEmitterProcess.want cfg) device cs ∧
        ∀ c, NeverStale (RedstoneEmitterProcess.run cfg) (RedstoneEmitterProcess.want cfg) device
            (cs ++ [c]) ↔
          Answered (after (RedstoneEmitterProcess.run cfg) device cs)
            (RedstoneEmitterProcess.want cfg c) c.outcome) ∧
    (∀ (cfg : HysteresisReactorConfig ν) device cs,
      AllAnswered (HysteresisReactorProcess.run f cfg) (HysteresisReactorProcess.want f cfg)
        ReactorCycle.outcome device cs →
      NeverStale (HysteresisReactorProcess.run f cfg) (HysteresisReactorProcess.want f cfg) device
          cs ∧
        ∀ c, NeverStale (HysteresisReactorProcess.run f cfg) (HysteresisReactorProcess.want f cfg)
            device (cs ++ [c]) ↔
          Answered (after (HysteresisReactorProcess.run f cfg) device cs)
            (HysteresisReactorProcess.want f cfg c) c.outcome) ∧
    ∀ (cfg : ProportionalReactorConfig) device cs,
      AllAnswered (ProportionalReactorProcess.run f cfg) (ProportionalReactorProcess.want f cfg)
        ReactorCycle.outcome device cs →
      NeverStale (ProportionalReactorProcess.run f cfg) (ProportionalReactorProcess.want f cfg)
          device cs ∧
        ∀ c, NeverStale (ProportionalReactorProcess.run f cfg)
            (ProportionalReactorProcess.want f cfg) device (cs ++ [c]) ↔
          Answered (after (ProportionalReactorProcess.run f cfg) device cs)
            (ProportionalReactorProcess.want f cfg c) c.outcome := by
  refine ⟨fun cfg device cs h => ?_, fun cfg device cs h => ?_, fun cfg device cs h => ?_⟩
  · exact h.neverStale (RedstoneEmitterProcess.run_eq_cycle cfg)
  · exact h.neverStale (HysteresisReactorProcess.run_eq_cycle f cfg)
  · exact h.neverStale (ProportionalReactorProcess.run_eq_cycle f cfg)

/-- Numbers that are all whole. -/
def wholeFloats : Float64 ℤ where
  zero := 0
  energyMax := 10000000
  div x y := x / y
  lt x y := x < y
  toPercent x := x * 100

/-- An emitter that is on while an item is wanted. -/
def lamp : RedstoneEmitterConfig Bool where
  output := emitWhenWantItem 0 15 fun wanted => if wanted then some () else none

/-- A reactor that is switched on below three tenths and off above seven. -/
def reactor : HysteresisReactorConfig ℤ := ⟨0, true, 30, 70⟩

def reading (pv : ℤ) (outcome : Outcome) : ReactorCycle ℤ where
  nCyanite := 0
  answer query := if query = "getHotFluidAmount" then some pv else some 1
  outcome := outcome

/-- Once the answer to a change is lost, the value before it is taken to be the one of the device. -/
theorem cached_outputs_stale :
    (¬ ∀ cs, NeverStale (RedstoneEmitterProcess.run lamp) (RedstoneEmitterProcess.want lamp) 0 cs) ∧
    (¬ ∀ cs, NeverStale (HysteresisReactorProcess.run wholeFloats reactor)
      (HysteresisReactorProcess.want wholeFloats reactor) false cs) ∧
    ¬ ∀ cs, NeverStale (ProportionalReactorProcess.run wholeFloats ⟨0, true⟩)
      (ProportionalReactorProcess.want wholeFloats ⟨0, true⟩) 0 cs := by
  refine ⟨fun h => ?_, fun h => ?_, fun h => ?_⟩
  · have hstale := h [⟨true, .acknowledged⟩, ⟨false, .lost⟩] ⟨true, .acknowledged⟩ 15
    exact absurd (hstale (by decide) (by decide)) (by decide)
  · have hstale := h [reading 20 .acknowledged, reading 80 .lost] (reading 20 .failed) true
    exact absurd (hstale (by decide) (by decide)) (by decide)
  · have hstale := h [reading 20 .acknowledged, reading 80 .lost] (reading 20 .failed) 2000
    exact absurd (hstale (by decide) (by decide)) (by decide)

/-- An answer is lost before any value is known: the lamp is asked again. -/
theorem cached_outputs_fresh_lamp :
    NeverStale (RedstoneEmitterProcess.run lamp) (RedstoneEmitterProcess.want lamp) 0
      [⟨true, .lost⟩, ⟨false, .acknowledged⟩] := by
  have hanswered : AllAnswered (RedstoneEmitterProcess.run lamp) (RedstoneEmitterProcess.want lamp)
      RedstoneEmitterProcess.Cycle.outcome 0 [⟨true, .lost⟩, ⟨false, .acknowledged⟩] := by
    refine ⟨⟨trivial, ?_⟩, ⟨trivial, ?_⟩, trivial⟩
    · intro v _ old hcache
      cases hcache
    · intro v _ old _ _
      simp
  exact ((cached_outputs_fresh wholeFloats).1 lamp 0 _ hanswered).1

end OCRemote
