import Limitr.ConfigWatcher
import Limitr.UnsignedText

/-!
# The environment of the process

The process takes its settings from environment variables, each with a default for
when the variable is not set.  A number that cannot be read counts as not set, and
nothing is said about it; a number that reads as zero is taken, and the validator
then ends the process.

`configured_iff` says which environments and files the process starts from.  Every
Redis configuration within the limits of its types can be given through the
environment (`fromEnv_environment`).
-/

namespace Limitr

/-- The variables that are set, to their texts. -/
abbrev Environment := String → Option String

/-- The largest `u16`. -/
def maxU16 : ℕ := 2 ^ 16 - 1

/-- The largest `u64`, and the largest `usize` of a 64-bit machine. -/
def maxU64 : ℕ := 2 ^ 64 - 1

/-- A number of the environment; the default where it is not set or not a number of
its type. -/
def Environment.number (env : Environment) (name : String) (limit default : ℕ) : ℕ :=
  ((env name).bind fun value => UnsignedText.parse limit value.toList).getD default

/-- `RedisConfig::from_env()`.  No letter outside ASCII has `t`, `r`, `u` or `e` as its
lower case. -/
def RedisConfig.fromEnv (env : Environment) : RedisConfig where
  url := (env "REDIS_CLUSTER_URL").getD "redis://localhost:6379"
  useTls := ((env "REDIS_USE_TLS").map fun value =>
    value.toList.map Char.toLower == "true".toList || value == "1").getD false
  username := env "REDIS_CLUSTER_USERNAME"
  password := env "REDIS_CLUSTER_PASSWORD"
  maxConnections := env.number "REDIS_MAX_CONN" maxU64 50
  connectionTimeoutSecs := env.number "REDIS_CONNECT_TIMEOUT_SECS" maxU64 5
  commandTimeoutSecs := env.number "REDIS_COMMAND_TIMEOUT_SECS" maxU64 2

structure ServerConfig where
  host : String
  port : ℕ

/-- `ServerConfig::default()`. -/
def ServerConfig.default : ServerConfig := ⟨"0.0.0.0", 50051⟩

/-- `ServerConfig::from_env()`. -/
def ServerConfig.fromEnv (env : Environment) : ServerConfig where
  host := (env "GRPC_HOST").getD "0.0.0.0"
  port := env.number "GRPC_PORT" maxU16 50051

def ServerConfig.addr (config : ServerConfig) : String :=
  config.host ++ ":" ++ toString config.port

/-- The port of the metrics server. -/
def metricsPort (env : Environment) : ℕ := env.number "METRICS_PORT" maxU16 9090

/-- The path of the configuration file, for the loader and for the watcher. -/
def configPath (env : Environment) : String :=
  (env "RATE_LIMIT_CONFIG").getD "config/rate_limits.json"

/-- What the process starts its servers with. -/
structure Configured where
  live : LiveConfig
  redis : RedisConfig
  server : ServerConfig
  metricsPort : ℕ

/-- `main` up to the servers, with what a read of each file gives. -/
def configure (parser : ConfigParser) (env : Environment) (files : String → FileRead) :
    Except RateLimitError Configured :=
  match startup parser (.fromEnv env) (files (configPath env)) with
  | .error e => .error e
  | .ok live => .ok ⟨live, .fromEnv env, .fromEnv env, metricsPort env⟩

variable {env : Environment} {name : String} {limit default : ℕ} {parser : ConfigParser}
  {files : String → FileRead}

/-! ## Numbers -/

/-- The text of a number that reads as zero: zeros, after a plus sign or without
one. -/
def Nought (text : String) : Prop :=
  ∃ zeros, zeros ≠ [] ∧ (text.toList = zeros ∨ text.toList = '+' :: zeros) ∧
    ∀ c ∈ zeros, c = '0'

/-- With a default that is not zero, a number is zero only where its text says so. -/
theorem number_eq_zero_iff (hdefault : default ≠ 0) :
    env.number name limit default = 0 ↔ ∃ value, env name = some value ∧ Nought value := by
  unfold Environment.number
  cases henv : env name with
  | none => simp [hdefault]
  | some value =>
      have hnought : Nought value ↔ UnsignedText.parse limit value.toList = some 0 :=
        UnsignedText.parse_eq_zero_iff.symm
      rw [Option.bind_some]
      simp only [Option.some.injEq, exists_eq_left', hnought]
      cases UnsignedText.parse limit value.toList with
      | none => simp [hdefault]
      | some n => simp

/-- A number of the environment keeps within the limit of its type. -/
theorem number_le (hdefault : default ≤ limit) : env.number name limit default ≤ limit := by
  unfold Environment.number
  cases hread : (env name).bind fun value => UnsignedText.parse limit value.toList with
  | none => exact hdefault
  | some n =>
      obtain ⟨value, _, hparse⟩ := Option.bind_eq_some_iff.mp hread
      obtain ⟨_, _, _, _, _, hle⟩ := UnsignedText.parse_eq_some_iff.mp hparse
      exact hle

/-- A number that is printed into the environment is read back. -/
theorem number_of_print {n : ℕ} (henv : env name = some (toString n)) (hn : n ≤ limit) :
    env.number name limit default = n := by
  have hread : UnsignedText.parse limit (toString n).toList = some n := by
    rw [Nat.toString_eq_repr, Nat.toList_repr]
    exact UnsignedText.parse_toDigits hn
  rw [Environment.number, henv, Option.bind_some, hread, Option.getD_some]

/-! ## Settings given through the environment -/

/-- The variables that spell a Redis configuration. -/
def RedisConfig.environment (config : RedisConfig) : Environment := fun name =>
  if name = "REDIS_CLUSTER_URL" then some config.url
  else if name = "REDIS_USE_TLS" then some (if config.useTls then "true" else "false")
  else if name = "REDIS_CLUSTER_USERNAME" then config.username
  else if name = "REDIS_CLUSTER_PASSWORD" then config.password
  else if name = "REDIS_MAX_CONN" then some (toString config.maxConnections)
  else if name = "REDIS_CONNECT_TIMEOUT_SECS" then some (toString config.connectionTimeoutSecs)
  else if name = "REDIS_COMMAND_TIMEOUT_SECS" then some (toString config.commandTimeoutSecs)
  else none

/-- **Redis settings are read back** from the variables that spell them. -/
theorem fromEnv_environment (config : RedisConfig) (hconnections : config.maxConnections ≤ maxU64)
    (hconnect : config.connectionTimeoutSecs ≤ maxU64)
    (hcommand : config.commandTimeoutSecs ≤ maxU64) :
    RedisConfig.fromEnv config.environment = config := by
  have htls : ((config.environment "REDIS_USE_TLS").map fun value =>
      value.toList.map Char.toLower == "true".toList || value == "1").getD false =
        config.useTls := by
    cases huse : config.useTls <;> simp [RedisConfig.environment, huse]
  have hmax : config.environment.number "REDIS_MAX_CONN" maxU64 50 = config.maxConnections :=
    number_of_print (by simp [RedisConfig.environment]) hconnections
  have htimeout : config.environment.number "REDIS_CONNECT_TIMEOUT_SECS" maxU64 5 =
      config.connectionTimeoutSecs := number_of_print (by simp [RedisConfig.environment]) hconnect
  have hcommands : config.environment.number "REDIS_COMMAND_TIMEOUT_SECS" maxU64 2 =
      config.commandTimeoutSecs := number_of_print (by simp [RedisConfig.environment]) hcommand
  unfold RedisConfig.fromEnv
  rw [htls, hmax, htimeout, hcommands]
  rfl

/-! ## Which settings the process starts with -/

/-- The text starts with one of the two schemes. -/
def HasScheme (url : String) : Prop :=
  "redis://".toList <+: url.toList ∨ "rediss://".toList <+: url.toList

theorem schemeless_iff (url : String) : (!"redis://".toList.isPrefixOf url.toList &&
    !"rediss://".toList.isPrefixOf url.toList) = true ↔ ¬HasScheme url := by
  rw [HasScheme, Bool.and_eq_true, Bool.not_eq_true', Bool.not_eq_true', Bool.eq_false_iff,
    Bool.eq_false_iff, ne_eq, ne_eq, List.isPrefixOf_iff_prefix, List.isPrefixOf_iff_prefix,
    not_or]

theorem not_schemeless {url : String} (h : HasScheme url) :
    ¬(!"redis://".toList.isPrefixOf url.toList && !"rediss://".toList.isPrefixOf url.toList) =
      true :=
  fun hnone => (schemeless_iff url).mp hnone h

/-- What the validator asks of the Redis settings. -/
theorem validateRedisConfig_ok_iff {config : RedisConfig} :
    validateRedisConfig config = .ok () ↔
      HasScheme config.url ∧ config.maxConnections ≠ 0 ∧ config.connectionTimeoutSecs ≠ 0 ∧
        config.commandTimeoutSecs ≠ 0 := by
  unfold validateRedisConfig
  by_cases hurl : config.url = ""
  · -- no scheme is a prefix of the empty text
    simp [hurl, HasScheme]
  · by_cases hscheme : HasScheme config.url
    · rw [if_neg hurl, if_neg (not_schemeless hscheme)]
      by_cases hconnections : config.maxConnections = 0
      · simp [hconnections]
      · rw [if_neg hconnections]
        by_cases hconnect : config.connectionTimeoutSecs = 0
        · simp [hconnect]
        · rw [if_neg hconnect]
          by_cases hcommand : config.commandTimeoutSecs = 0
          · simp [hcommand]
          · rw [if_neg hcommand]
            exact ⟨fun _ => ⟨hscheme, hconnections, hconnect, hcommand⟩, fun _ => rfl⟩
    · rw [if_neg hurl, if_pos ((schemeless_iff config.url).mpr hscheme)]
      constructor
      · intro h
        cases h
      · intro h
        exact absurd h.1 hscheme

/-- The settings of the environment pass when the URL has a scheme where it is set,
and no number is written as zero. -/
theorem fromEnv_ok_iff : validateRedisConfig (.fromEnv env) = .ok () ↔
    (∀ url, env "REDIS_CLUSTER_URL" = some url → HasScheme url) ∧
    ∀ name ∈ ["REDIS_MAX_CONN", "REDIS_CONNECT_TIMEOUT_SECS", "REDIS_COMMAND_TIMEOUT_SECS"],
      ∀ value, env name = some value → ¬Nought value := by
  have hurl : HasScheme (RedisConfig.fromEnv env).url ↔
      ∀ url, env "REDIS_CLUSTER_URL" = some url → HasScheme url := by
    rw [RedisConfig.fromEnv]
    cases env "REDIS_CLUSTER_URL" with
    | none =>
        have hdefault : HasScheme "redis://localhost:6379" := Or.inl (by decide)
        simp only [Option.getD_none, hdefault, reduceCtorEq, false_implies, implies_true]
    | some url => simp only [Option.getD_some, Option.some.injEq, forall_eq']
  have hnumber : ∀ name limit default, default ≠ 0 →
      (env.number name limit default ≠ 0 ↔ ∀ value, env name = some value → ¬Nought value) := by
    intro name limit default hdefault
    rw [ne_eq, number_eq_zero_iff hdefault, not_exists]
    simp only [not_and]
  rw [validateRedisConfig_ok_iff, hurl]
  apply and_congr_right
  intro _
  simp only [RedisConfig.fromEnv, List.forall_mem_cons, List.not_mem_nil, false_implies,
    implies_true, and_true]
  rw [hnumber _ _ 50 (by decide), hnumber _ _ 5 (by decide), hnumber _ _ 2 (by decide)]

/-- The process comes up to the servers when the file is good and the Redis settings
pass. -/
theorem configure_eq_ok_iff {configured : Configured} :
    configure parser env files = .ok configured ↔
      ∃ config, Good parser (files (configPath env)) config ∧
        validateRedisConfig (.fromEnv env) = .ok () ∧
        configured = ⟨⟨.new config, Metrics.start.updateConfigMetrics config.domains.length⟩,
          .fromEnv env, .fromEnv env, metricsPort env⟩ := by
  unfold configure startup loadConfig
  rcases load_cases parser (files (configPath env)) .start with
    ⟨config, hgood, hload⟩ | ⟨e, hbad, hload⟩
  · have hvalid : validateConfig ⟨.fromEnv env, config⟩ = .ok () ↔
        validateRedisConfig (.fromEnv env) = .ok () := by
      obtain ⟨_, _, _, hentries⟩ := good_iff.mp hgood
      rw [validateConfig_ok_iff]
      exact and_iff_left hentries
    rw [hload]
    dsimp only
    cases hcheck : validateConfig ⟨.fromEnv env, config⟩ with
    | error e =>
        constructor
        · intro h
          cases h
        · intro h
          obtain ⟨_, _, hredis, _⟩ := h
          rw [hvalid.mpr hredis] at hcheck
          cases hcheck
    | ok u =>
        rw [Except.ok.injEq]
        constructor
        · intro h
          exact ⟨config, hgood, hvalid.mp hcheck, h.symm⟩
        · intro h
          obtain ⟨config', hgood', _, rfl⟩ := h
          rw [hgood.unique hgood']
          rfl
  · rw [hload]
    constructor
    · intro h
      cases h
    · intro h
      obtain ⟨config, hgood, _⟩ := h
      exact absurd hgood (hbad config)

/-- **What the process starts from**: a good configuration file, a Redis URL with one
of the two schemes where it is set, and no number among the Redis settings that is
written as zero.  No other text of a number keeps it from starting. -/
theorem configured_iff (parser : ConfigParser) (env : Environment) (files : String → FileRead) :
    (∃ configured, configure parser env files = .ok configured) ↔
      (∃ config, Good parser (files (configPath env)) config) ∧
        (∀ url, env "REDIS_CLUSTER_URL" = some url → HasScheme url) ∧
        ∀ name ∈ ["REDIS_MAX_CONN", "REDIS_CONNECT_TIMEOUT_SECS", "REDIS_COMMAND_TIMEOUT_SECS"],
          ∀ value, env name = some value → ¬Nought value := by
  rw [← fromEnv_ok_iff]
  simp only [configure_eq_ok_iff]
  constructor
  · intro h
    obtain ⟨_, config, hgood, hredis, _⟩ := h
    exact ⟨⟨config, hgood⟩, hredis⟩
  · intro h
    obtain ⟨⟨config, hgood⟩, hredis⟩ := h
    exact ⟨_, config, hgood, hredis, rfl⟩

end Limitr
