import Ebnf.Double
import Ebnf.Table

/-! What users may set: limits for the whole engine, and generator settings for single nodes. -/

namespace Ebnf

structure EngineSettings where
  repetitionLimit : Nat
  /-- The nesting depth past which alternatives avoid recursive options. -/
  depthLimit : Nat
  traceMatches : Bool
deriving DecidableEq

namespace EngineSettings

def standard : EngineSettings := ⟨128, 128, false⟩

end EngineSettings

structure NodeSettings where
  min : Option Nat
  /-- A negative maximum means unbounded. -/
  max : Option Int
  pow : Option Double
  weights : Option (List Double)
deriving DecidableEq

abbrev RuleSettings := Table NodeSettings

end Ebnf
