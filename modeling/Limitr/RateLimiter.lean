import Limitr.BucketScript
import Limitr.Configuration
import Limitr.Metrics

/-!
# The Redis client and the limiter

`executeRateLimitScript` sends the script to Redis and reads its reply back;
`checkLimit` turns the response into a decision, and any error into permission;
`getBucketStatus` fetches the packed state and decodes it.

What Redis holds is a `Store` of slots.  Each call comes with the reading of
Redis' clock and the state of the connection: it may be up, it may be down
before the script is sent, or the reply may be lost after the script has run.
An error of a library is carried as its text.
-/

namespace Limitr

open DecimalText

/-- What Redis holds under every key. -/
abbrev Store := String → Slot

def Store.set (store : Store) (key : String) (slot : Slot) : Store :=
  fun k => if k = key then slot else store k

/-- The state of the connection during one call. -/
inductive Link where
  | up
  | lost (error : String)
  | down (error : String)

/-- One call of Redis. -/
structure RedisCall where
  link : Link
  time : RawTime

/-- Redis and the metrics, as the service changes them. -/
structure ServiceState where
  store : Store
  metrics : Metrics

/-! ## The client -/

/-- A reply value; a bulk string is its text, or the error of decoding it. -/
inductive RedisValue where
  | int (v : Int64)
  | bulkString (text : Except String String)
  | other (debug : String)

def RedisValue.debug : RedisValue → String
  | int v => "int(" ++ toString v.toInt ++ ")"
  | bulkString _ => "binary-data"
  | other debug => debug

structure ScriptResponse where
  allowed : Bool
  capacityOrDeny : F64
  limitingRateIndex : Int32
  deriving DecidableEq

def LuaError.text : LuaError → String
  | arithmetic type => "attempt to perform arithmetic on a " ++ type ++ " value"
  | index type => "attempt to index a " ++ type ++ " value"
  | invalidExpire => "ERR invalid expire time in 'setex' command"

/-- `tostring` of a number: fourteen significant digits. -/
def tostring (x : F64) : String := print 14 x

/-- The returned table as Redis replies it. -/
def ScriptReply.values (reply : ScriptReply) : List RedisValue :=
  [.int (Int64.ofInt reply.allowed), .bulkString (.ok (tostring reply.capacityOrDeny)),
    .int (Int64.ofNat reply.limitingIndex)]

/-- `parse::<f64>()` with the text of its error. -/
def parseCapacity (text : String) : Except RateLimitError F64 :=
  match parse text with
  | some x => .ok x
  | none => .error (.scriptExecutionError ("Failed to parse capacity: " ++
      (if text = "" then "cannot parse float from empty string" else "invalid float literal")))

def parseScriptResponse (result : List RedisValue) : Except RateLimitError ScriptResponse :=
  match result with
  | [first, second, third] => do
      let allowed ← match first with
        | .int v => .ok (decide (v = 1))
        | _ => .error (.scriptExecutionError "Invalid allowed value type")
      let capacityOrDeny ← match second with
        | .bulkString (.ok text) => parseCapacity text
        | .bulkString (.error e) =>
            .error (.scriptExecutionError ("Invalid UTF-8 in capacity: " ++ e))
        | value => .error (.scriptExecutionError ("Invalid capacity value type: " ++ value.debug))
      let limitingRateIndex ← match third with
        | .int v => .ok v.toInt32
        | _ => .error (.scriptExecutionError "Invalid limiting_rate_index type")
      return ⟨allowed, capacityOrDeny, limitingRateIndex⟩
  | _ => .error (.scriptExecutionError
      ("Invalid script response length: " ++ toString result.length))

section Client

variable (p : Platform) (call : RedisCall) (key : String)

/-- The slot of the key once the call has reached Redis, or has not. -/
def slotAfterCall (cost : Int32) (policies : List (F64 × Int64)) (slot : Slot) : Slot :=
  match call.link with
  | .down _ => slot
  | _ => (execute p slot ⟨policies, cost, call.time⟩).2

def executeRateLimitScript (cost : Int32) (policies : List (F64 × Int64)) (s : ServiceState) :
    Except RateLimitError ScriptResponse × ServiceState :=
  let store := s.store.set key (slotAfterCall p call cost policies (s.store key))
  let failed := fun error =>
    (.error (.scriptExecutionError ("Script execution failed: " ++ error)),
      ⟨store, (s.metrics.recordRedisError "script_execution_failed").recordScriptExecution false⟩)
  match call.link with
  | .down error => (.error (.redisConnectionError error),
      ⟨store, s.metrics.recordRedisError "connection_establishment_failed"⟩)
  | .lost error => failed error
  | .up =>
      match (execute p (s.store key) ⟨policies, cost, call.time⟩).1 with
      | .error e => failed e.text
      | .ok outcome => (parseScriptResponse outcome.reply.values,
          ⟨store, s.metrics.recordScriptExecution true⟩)

def getBucketState (s : ServiceState) : Except RateLimitError (Option (List UInt8)) :=
  match call.link with
  | .down error => .error (.redisConnectionError error)
  | .lost error => .error (.redisCommandError error)
  | .up =>
      match p.expire (s.store key) call.time with
      | none => .ok none
      | some ⟨.string bytes, _, _⟩ => .ok (some bytes)
      | some ⟨.other, _, _⟩ => .error (.redisCommandError
          "WRONGTYPE: Operation against a key holding the wrong kind of value")

end Client

/-! ## The limiter -/

structure LimitDecision where
  allowed : Bool
  remainingCapacity : F64
  limitingRateIndex : Int32
  denyCount : Int64
  deriving DecidableEq

structure BucketLevel where
  currentLevel : F64
  flowRate : F64
  burstCapacity : Int64
  remainingCapacity : F64
  deriving DecidableEq

structure BucketStatus where
  levels : List BucketLevel
  lastUpdateTimestamp : Int64
  denyCount : Int64
  deriving DecidableEq

def constructBucketKey (domain prefixKey key : String) : String :=
  "bucket:" ++ domain ++ ":" ++ prefixKey ++ ":" ++ key

/-- The decision a response comes to. -/
def ScriptResponse.toDecision (response : ScriptResponse) : LimitDecision :=
  if response.allowed then
    ⟨true, response.capacityOrDeny, response.limitingRateIndex, 0⟩
  else
    ⟨false, -response.capacityOrDeny, response.limitingRateIndex, response.capacityOrDeny.toI64⟩

/-- The decision when Redis is unavailable. -/
def failOpen : LimitDecision := ⟨true, F64.maxFinite, 0, 0⟩

/-- A status without any levels. -/
def BucketStatus.empty : BucketStatus := ⟨[], 0, 0⟩

section Limiter

variable (p : Platform) (call : RedisCall) (domain prefixKey key : String)

/-- `check_limit`, which never returns an error. -/
def checkLimit (policies : List RatePolicy) (cost : Int32) (s : ServiceState) :
    Except RateLimitError LimitDecision × ServiceState :=
  let bucketKey := constructBucketKey domain prefixKey key
  let policyPairs := policies.map fun policy => (policy.flowRatePerSecond, policy.burstCapacity)
  match executeRateLimitScript p call bucketKey cost policyPairs s with
  | (.ok response, s) => (.ok response.toDecision, s)
  | (.error _, s) => (.ok failOpen, s)

def decodeBucketState (data : List UInt8) : Except RateLimitError (F64 × Int64 × List F64) :=
  match p.fromSlice data with
  | .ok decoded => .ok decoded
  | .error e => .error (.serializationError ("Failed to decode bucket state: " ++ e))

/-- Neither the flow rate nor the burst of a level is stored with it. -/
def getBucketStatus (s : ServiceState) : Except RateLimitError BucketStatus := do
  match ← getBucketState p call (constructBucketKey domain prefixKey key) s with
  | some data =>
      match decodeBucketState p data with
      | .ok (lastTime, denyCount, tokenLevels) =>
          return ⟨tokenLevels.map fun level => ⟨level, 0, 0, 0⟩, lastTime.toI64, denyCount⟩
      | .error _ => return .empty
  | none => return .empty

end Limiter

/-! ## What a call comes to -/

variable (p : Platform) (call : RedisCall) (key : String) (cost : Int32)
  (policies : List (F64 × Int64)) (s : ServiceState)

/-- A call changes the slot of its own key and no other. -/
theorem executeRateLimitScript_store :
    (executeRateLimitScript p call key cost policies s).2.store =
      s.store.set key (slotAfterCall p call cost policies (s.store key)) := by
  unfold executeRateLimitScript
  cases call.link with
  | down error => rfl
  | lost error => rfl
  | up =>
      cases (execute p (s.store key) ⟨policies, cost, call.time⟩).1 with
      | error e => rfl
      | ok outcome => rfl

/-- What the script replies is a well-formed response. -/
theorem parseScriptResponse_values (reply : ScriptReply) :
    ∃ x, parse (tostring reply.capacityOrDeny) = some x ∧
      parseScriptResponse reply.values = .ok ⟨decide (Int64.ofInt reply.allowed = 1), x,
        (Int64.ofNat reply.limitingIndex).toInt32⟩ := by
  obtain ⟨x, hx⟩ := Option.isSome_iff_exists.mp (parse_print_isSome 14 reply.capacityOrDeny)
  refine ⟨x, hx, ?_⟩
  have hcapacity : parseCapacity (tostring reply.capacityOrDeny) = .ok x := by
    rw [parseCapacity, tostring, hx]
  simp only [parseScriptResponse, ScriptReply.values, hcapacity, bind, Except.bind, pure,
    Except.pure]

/-- The client answers with a response when the connection is up and the script
runs to its return, and only then. -/
theorem executeRateLimitScript_isOk_iff :
    (executeRateLimitScript p call key cost policies s).1.isOk = true ↔
      call.link = .up ∧ (execute p (s.store key) ⟨policies, cost, call.time⟩).1.isOk = true := by
  unfold executeRateLimitScript
  cases call.link with
  | down error => simp [Except.isOk, Except.toBool]
  | lost error => simp [Except.isOk, Except.toBool]
  | up =>
      cases (execute p (s.store key) ⟨policies, cost, call.time⟩).1 with
      | error e => simp [Except.isOk, Except.toBool]
      | ok outcome =>
          obtain ⟨x, _, hparse⟩ := parseScriptResponse_values outcome.reply
          simp [Except.isOk, Except.toBool, hparse]

/-- A decision depends on the slot of its own key alone. -/
theorem checkLimit_congr {s s' : ServiceState} {domain prefixKey key : String}
    (h : s.store (constructBucketKey domain prefixKey key) =
      s'.store (constructBucketKey domain prefixKey key)) (policies : List RatePolicy) :
    (checkLimit p call domain prefixKey key policies cost s).1 =
      (checkLimit p call domain prefixKey key policies cost s').1 := by
  unfold checkLimit executeRateLimitScript
  simp only [h]
  cases call.link with
  | down error => rfl
  | lost error => rfl
  | up =>
      cases (execute p (s'.store (constructBucketKey domain prefixKey key)) _).1 with
      | error e => rfl
      | ok outcome =>
          obtain ⟨x, _, hparse⟩ := parseScriptResponse_values outcome.reply
          simp only [hparse]

theorem checkLimit_store (domain prefixKey key : String) (policies : List RatePolicy) :
    (checkLimit p call domain prefixKey key policies cost s).2.store =
      s.store.set (constructBucketKey domain prefixKey key)
        (slotAfterCall p call cost
          (policies.map fun policy => (policy.flowRatePerSecond, policy.burstCapacity))
          (s.store (constructBucketKey domain prefixKey key))) := by
  have hstore := executeRateLimitScript_store p call (constructBucketKey domain prefixKey key)
    cost (policies.map fun policy => (policy.flowRatePerSecond, policy.burstCapacity)) s
  rw [← hstore]
  unfold checkLimit
  dsimp only
  generalize executeRateLimitScript p call (constructBucketKey domain prefixKey key) cost
    (policies.map fun policy => (policy.flowRatePerSecond, policy.burstCapacity)) s = result
  obtain ⟨response, s'⟩ := result
  cases response with
  | error e => rfl
  | ok response => rfl

end Limitr
