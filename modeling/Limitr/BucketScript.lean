import Limitr.ScriptHost
import Limitr.MachineRuns

/-!
# The leaky bucket script

`leakyBucket` is the Lua script as it stands: it reads the stored state back,
or starts afresh when that fails, walks once over the pairs of flow rate and
burst in its argument vector, and writes either the new levels or the old ones
beside the current time.  `execute` is one atomic execution on the slot of its
key, with the expiry of the key before it and the `SETEX` that ends it; an
error anywhere aborts the execution and writes nothing.

Lua counts from one: `ARGV[1]` is the cost, and the `i`-th pair is `ARGV[2i]`
and `ARGV[2i + 1]`.
-/

namespace Limitr

/-- An argument of the script: the text `to_string` prints for a number. -/
inductive ArgText where
  | i32 (n : Int32)
  | f64 (x : F64)
  | i64 (n : Int64)

/-- `tonumber` reads the number back from its text. -/
def ArgText.toNumber : ArgText → F64
  | i32 n => F64.ofInt n.toInt
  | f64 x => x
  | i64 n => F64.ofInt n.toInt

/-- `[cost, flow1, burst1, flow2, burst2, ...]`, as the client builds it. -/
def buildArgs (cost : Int32) (policies : List (F64 × Int64)) : List ArgText :=
  .i32 cost :: policies.flatMap fun pair => [.f64 pair.1, .i64 pair.2]

/-- `tonumber(ARGV[j])`; past the end it is nil, which no arithmetic accepts. -/
def numberArg (argv : List ArgText) (j : ℕ) : Except LuaError F64 :=
  match argv[j - 1]? with
  | some text => .ok text.toNumber
  | none => .error (.arithmetic "nil")

/-- The values a numeric `for` counting from one takes up to its limit. -/
def forRange (limit : ℚ) : List ℕ := List.range' 1 ⌊limit⌋₊

/-- The three values the script keeps under its key. -/
structure StoredState where
  lastTime : LuaValue
  denyCount : LuaValue
  tokenLevels : LuaValue

def StoredState.values (s : StoredState) : List LuaValue :=
  [s.lastTime, s.denyCount, s.tokenLevels]

/-- `tonumber(raw_time[1]) + tonumber(raw_time[2]) / 1e6` -/
def scriptNow (time : RawTime) : F64 :=
  F64.ofInt time.seconds + F64.ofInt time.microseconds / 1000000

/-- A bucket no request has touched. -/
def StoredState.fresh (time : RawTime) : StoredState :=
  ⟨.number (scriptNow time), .number 0, .array []⟩

/-- The state read back with `pcall(cmsgpack.unpack, redis.pcall('get', key))`.
A missing key or a value of another type is no string, and unpacking it raises
like malformed bytes do; values missing from the end are nil. -/
def readState (p : Platform) (slot : Slot) (time : RawTime) : StoredState :=
  match slot with
  | some ⟨.string bytes, _, _⟩ =>
      match p.unpack bytes with
      | some values => ⟨values.getD 0 .nil, values.getD 1 .nil, values.getD 2 .nil⟩
      | none => .fresh time
  | _ => .fresh time

/-- The variables the loop carries. -/
structure LoopState where
  nextLevels : List F64
  expireTime : F64
  freeCapacity : F64
  limitingIndex : ℕ

def LoopState.start : LoopState := ⟨[], 0, F64.inf false, 0⟩

section Loop

variable (p : Platform) (argv : List ArgText)

/-- One round of the loop.  The table of next levels is filled in order, so
setting its `i`-th element appends. -/
def iteration (cost delta : F64) (tokenLevels : LuaValue) (s : LoopState) (i : ℕ) :
    Except LuaError LoopState := do
  let flow ← numberArg argv (2 * i)
  let burst ← numberArg argv (2 * i + 1)
  let previousLevel ← p.toNumber (← tokenLevels.index i).orZero
  let leakedLevel := F64.max 0 (previousLevel - delta * flow)
  let nextLevel := leakedLevel + cost
  let remaining := burst - nextLevel
  return {
    nextLevels := s.nextLevels ++ [nextLevel]
    expireTime := F64.max s.expireTime (F64.ceil (F64.max burst nextLevel / flow))
    freeCapacity := if remaining < s.freeCapacity then remaining else s.freeCapacity
    limitingIndex := if remaining < s.freeCapacity then i else s.limitingIndex }

/-- The script up to the end of its loop, from the state it has read. -/
def sweep (state : StoredState) (time : RawTime) : Except LuaError LoopState := do
  let cost ← numberArg argv 1
  let delta := scriptNow time - (← p.toNumber state.lastTime)
  (forRange (argv.length / 2)).foldlM (iteration p argv cost delta state.tokenLevels) .start

end Loop

/-- The levels the loop finds in a state before it adds a cost. -/
def leakedLevels (p : Platform) (policies : List (F64 × Int64)) (state : StoredState)
    (time : RawTime) : Except LuaError (List F64) := do
  return (← sweep p (buildArgs 0 policies) state time).nextLevels

/-- The levels the loop finds under a key at a time. -/
def levelsFound (p : Platform) (policies : List (F64 × Int64)) (slot : Slot) (time : RawTime) :
    Except LuaError (List F64) :=
  leakedLevels p policies (readState p (p.expire slot time) time) time

/-- What the script hands to `SETEX`. -/
structure ScriptWrite where
  expireTime : F64
  state : StoredState

/-- What the script returns: `{ allowed, tostring(capacityOrDeny), limitingIndex }`. -/
structure ScriptReply where
  allowed : ℤ
  capacityOrDeny : F64
  limitingIndex : ℕ

structure ScriptOutcome where
  write : ScriptWrite
  reply : ScriptReply

section Decision

variable (p : Platform) (argv : List ArgText)

/-- The decision after the loop.  A denied request keeps the token levels it
found, next to the current time. -/
def conclude (state : StoredState) (time : RawTime) (s : LoopState) :
    Except LuaError ScriptOutcome := do
  let cost ← numberArg argv 1
  if 0 ≤ s.freeCapacity then
    return {
      write := ⟨s.expireTime, .number (scriptNow time), .number 0,
        .array (s.nextLevels.map .number)⟩
      reply := ⟨1, s.freeCapacity, s.limitingIndex⟩ }
  else
    let denyCount := (← p.toNumber state.denyCount) + cost
    return {
      write := ⟨s.expireTime, .number (scriptNow time), .number denyCount, state.tokenLevels⟩
      reply := ⟨0, denyCount, s.limitingIndex⟩ }

/-- The script up to its `SETEX`, on a slot whose expiry has been settled. -/
def leakyBucket (time : RawTime) (slot : Slot) : Except LuaError ScriptOutcome := do
  let state := readState p slot time
  conclude p argv state time (← sweep p argv state time)

end Decision

/-- One call of the script: the policies and the cost the client sends, and
the reading of the clock when Redis runs it. -/
structure Call where
  policies : List (F64 × Int64)
  cost : Int32
  time : RawTime

def Call.argv (call : Call) : List ArgText := buildArgs call.cost call.policies

/-- One execution of the script on the slot of its key. -/
def execute (p : Platform) (slot : Slot) (call : Call) :
    Except LuaError ScriptOutcome × Slot :=
  let found := p.expire slot call.time
  match leakyBucket p call.argv call.time found with
  | .error e => (.error e, found)
  | .ok outcome =>
      match setexSeconds call.time outcome.write.expireTime with
      | .error e => (.error e, found)
      | .ok expire =>
          (.ok outcome,
            some ⟨.string (p.pack outcome.write.state.values), call.time, expire⟩)

/-- The argument vector with the cost in any text. -/
def argsOf (cost : ArgText) (policies : List (F64 × Int64)) : List ArgText :=
  cost :: policies.flatMap fun pair => [.f64 pair.1, .i64 pair.2]

/-- One execution of the script on an argument vector. -/
def executeArgs (p : Platform) (slot : Slot) (argv : List ArgText) (time : RawTime) :
    Except LuaError ScriptOutcome × Slot :=
  let found := p.expire slot time
  match leakyBucket p argv time found with
  | .error e => (.error e, found)
  | .ok outcome =>
      match setexSeconds time outcome.write.expireTime with
      | .error e => (.error e, found)
      | .ok expire =>
          (.ok outcome, some ⟨.string (p.pack outcome.write.state.values), time, expire⟩)

/-- A call executes the script on its own argument vector. -/
theorem executeArgs_call (p : Platform) (slot : Slot) (call : Call) :
    executeArgs p slot (argsOf (.i32 call.cost) call.policies) call.time = execute p slot call :=
  rfl

/-- The script ran to its return when it has an outcome. -/
theorem exists_outcome {output : Except LuaError ScriptOutcome} (h : output.isOk = true) :
    ∃ outcome, output = .ok outcome := by
  cases output with
  | error e => cases h
  | ok outcome => exact ⟨outcome, rfl⟩

/-- A firing of the script, as `MachineRuns.trace` records it. -/
abbrev Execution := MachineRuns.Firing Slot Call (Except LuaError ScriptOutcome)

/-- The executions of a run on one key. -/
abbrev executions (p : Platform) : Slot → List Call → List Execution :=
  MachineRuns.trace (execute p)

/-- The slot a run on one key ends with. -/
abbrev finalSlot (p : Platform) : Slot → List Call → Slot := MachineRuns.final (execute p)

/-! ## Reading the argument vector -/

/-- A list of pairs written out flat holds the `i`-th pair at `2i` and `2i + 1`. -/
theorem getElem?_flatMap_pairs (pairs : List (F64 × Int64)) (i : ℕ) :
    (pairs.flatMap fun pair => [ArgText.f64 pair.1, ArgText.i64 pair.2])[2 * i]? =
      pairs[i]?.map (fun pair => ArgText.f64 pair.1) ∧
    (pairs.flatMap fun pair => [ArgText.f64 pair.1, ArgText.i64 pair.2])[2 * i + 1]? =
      pairs[i]?.map (fun pair => ArgText.i64 pair.2) := by
  induction pairs generalizing i with
  | nil => simp
  | cons pair pairs ih =>
      cases i with
      | zero => simp
      | succ i =>
          have hi : 2 * (i + 1) = 2 * i + 1 + 1 := by omega
          rw [hi]
          simpa using ih i

theorem length_buildArgs (cost : Int32) (policies : List (F64 × Int64)) :
    (buildArgs cost policies).length = 2 * policies.length + 1 := by
  simp [buildArgs, Nat.mul_comm]

theorem numberArg_cost (cost : Int32) (policies : List (F64 × Int64)) :
    numberArg (buildArgs cost policies) 1 = .ok (F64.ofInt cost.toInt) := rfl

/-- **The argument vector is read as it was built**: in round `i + 1` the loop
reads the flow rate and the burst of the `i`-th pair. -/
theorem numberArg_pair {cost : Int32} {policies : List (F64 × Int64)} {i : ℕ}
    {pair : F64 × Int64} (h : policies[i]? = some pair) :
    numberArg (buildArgs cost policies) (2 * (i + 1)) = .ok pair.1 ∧
      numberArg (buildArgs cost policies) (2 * (i + 1) + 1) =
        .ok (F64.ofInt pair.2.toInt) := by
  have hpairs := getElem?_flatMap_pairs policies i
  have hflow : 2 * (i + 1) - 1 = 2 * i + 1 := by omega
  have hburst : 2 * (i + 1) + 1 - 1 = 2 * i + 1 + 1 := by omega
  simp only [numberArg, buildArgs, hflow, hburst, List.getElem?_cons_succ, hpairs.1, hpairs.2, h,
    Option.map_some, ArgText.toNumber, and_self]

/-- The fractional bound of the loop allows one round for each pair. -/
theorem forRange_args (cost : Int32) (policies : List (F64 × Int64)) :
    forRange ((buildArgs cost policies).length / 2) = List.range' 1 policies.length := by
  have hfloor : ⌊(((buildArgs cost policies).length : ℚ) / 2)⌋₊ = policies.length := by
    rw [length_buildArgs, Nat.floor_eq_iff (by positivity)]
    push_cast
    constructor <;> linarith
  rw [forRange, hfloor]

theorem scriptNow_eq (time : RawTime) : scriptNow time = F64.fin time.now := by
  have hdiv : F64.ofInt time.microseconds / 1000000 =
      F64.fin (((time.microseconds : ℤ) : ℚ) / (1000000 : ℕ)) :=
    F64.fin_div_fin _ _ (by norm_num)
  rw [scriptNow, hdiv, F64.ofInt, F64.fin_add_fin, RawTime.now]
  norm_num

end Limitr
