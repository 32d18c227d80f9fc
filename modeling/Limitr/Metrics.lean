import Limitr.ExactDouble

/-!
# Metrics

The counters of the service, one value for each label.  A plain counter counts
in doubles, an integer counter in unsigned 64-bit integers that wrap around; a
histogram is kept as the list of what it has observed.
-/

namespace Limitr

structure Metrics where
  requestsTotal : String × String × String → ℚ
  requestsDeniedTotal : String × String → ℚ
  tokensConsumedTotal : String × String → ℚ
  denyCountTotal : String × String → UInt64
  redisErrorsTotal : String → ℚ
  redisScriptExecutionsTotal : String → ℚ
  bucketRemainingCapacity : String × String → List F64
  limitingRateIndex : String × String → List F64
  configReloadsTotal : String → ℚ
  activeDomains : ℚ

/-- Change the value of one label. -/
def atLabel {Label Value : Type} [DecidableEq Label] (values : Label → Value) (label : Label)
    (change : Value → Value) : Label → Value :=
  fun l => if l = label then change (values l) else values l

namespace Metrics

/-- What the registry holds when the process starts. -/
def start : Metrics where
  requestsTotal := fun _ => 0
  requestsDeniedTotal := fun _ => 0
  tokensConsumedTotal := fun _ => 0
  denyCountTotal := fun _ => 0
  redisErrorsTotal := fun _ => 0
  redisScriptExecutionsTotal := fun _ => 0
  bucketRemainingCapacity := fun _ => []
  limitingRateIndex := fun _ => []
  configReloadsTotal := fun _ => 0
  activeDomains := 0

variable (m : Metrics)

def recordRequest (domain prefixKey : String) (allowed : Bool) : Metrics :=
  { m with
    requestsTotal := atLabel m.requestsTotal
      (domain, prefixKey, if allowed then "true" else "false") (· + 1) }

def recordDenied (domain prefixKey : String) (denyCount : Int64) : Metrics :=
  { m with
    requestsDeniedTotal := atLabel m.requestsDeniedTotal (domain, prefixKey) (· + 1)
    denyCountTotal := atLabel m.denyCountTotal (domain, prefixKey) (· + denyCount.toUInt64) }

def recordTokensConsumed (domain prefixKey : String) (cost : Int32) : Metrics :=
  { m with
    tokensConsumedTotal := atLabel m.tokensConsumedTotal (domain, prefixKey) (· + cost.toInt) }

def recordRemainingCapacity (domain prefixKey : String) (capacity : F64) : Metrics :=
  { m with
    bucketRemainingCapacity :=
      atLabel m.bucketRemainingCapacity (domain, prefixKey) (· ++ [capacity]) }

def recordLimitingIndex (domain prefixKey : String) (index : Int32) : Metrics :=
  { m with
    limitingRateIndex :=
      atLabel m.limitingRateIndex (domain, prefixKey) (· ++ [F64.ofInt index.toInt]) }

def recordRedisError (errorType : String) : Metrics :=
  { m with redisErrorsTotal := atLabel m.redisErrorsTotal errorType (· + 1) }

def recordScriptExecution (success : Bool) : Metrics :=
  { m with
    redisScriptExecutionsTotal := atLabel m.redisScriptExecutionsTotal
      (if success then "success" else "error") (· + 1) }

def updateConfigMetrics (domainCount : ℕ) : Metrics :=
  { m with activeDomains := domainCount }

def recordConfigReload (success : Bool) : Metrics :=
  { m with
    configReloadsTotal := atLabel m.configReloadsTotal
      (if success then "success" else "error") (· + 1) }

end Metrics

end Limitr
