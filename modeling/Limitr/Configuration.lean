import Limitr.DecimalText

/-!
# Configuration: policies, the lookup cache, validation

The configuration types of the service, the cache that `GetCurrentConfig` and
the request handler read, and the validator every configuration passes before
a cache is built from it.  A flow rate is a double, a burst capacity a signed
64-bit integer; the validator only ever compares them with zero.

`validateConfig_ok_iff` reads the validator's loops and early returns as a
condition on the configuration.  Whatever passes, and whose flow rates are
finite, is carried further as a `ValidPolicies`: a nonempty list of policies
that hold the proofs of their own positivity.
-/

namespace Limitr

/-- The errors of the service; a library error is carried as its text. -/
inductive RateLimitError where
  | configurationError (message : String)
  | invalidDomain (message : String)
  | invalidRate (message : String)
  | redisConnectionError (message : String)
  | redisCommandError (message : String)
  | scriptExecutionError (message : String)
  | serializationError (message : String)
  | fileSystemError (message : String)
  | jsonError (message : String)
  | internalError (message : String)
  deriving DecidableEq, Repr

/-- The gRPC codes the errors map to. -/
inductive Code where
  | internal
  | invalidArgument
  | unavailable
  deriving DecidableEq, Repr

structure Status where
  code : Code
  message : String
  deriving DecidableEq, Repr

def RateLimitError.toStatus : RateLimitError → Status
  | configurationError message => ⟨.internal, "Configuration Error: " ++ message⟩
  | invalidDomain message => ⟨.invalidArgument, "Invalid domain: " ++ message⟩
  | invalidRate message => ⟨.invalidArgument, "Invalid rate: " ++ message⟩
  | redisConnectionError message => ⟨.unavailable, "Redis connection error: " ++ message⟩
  | redisCommandError message => ⟨.internal, "Redis command error: " ++ message⟩
  | scriptExecutionError message => ⟨.internal, "Script execution error: " ++ message⟩
  | serializationError message => ⟨.internal, "Serialization error: " ++ message⟩
  | fileSystemError message => ⟨.internal, "File system error: " ++ message⟩
  | jsonError message => ⟨.internal, "JSON parsing error: " ++ message⟩
  | internalError message => ⟨.internal, "Internal error: " ++ message⟩

/-- One rate of a multi-rate limit. -/
structure RatePolicy where
  name : String
  flowRatePerSecond : F64
  burstCapacity : Int64
  deriving DecidableEq, Repr

/-- The policies of one domain and prefix. -/
structure DomainConfig where
  domain : String
  prefixKey : String
  policies : List RatePolicy
  deriving DecidableEq, Repr

structure RateLimitConfig where
  domains : List DomainConfig
  default : DomainConfig
  deriving DecidableEq, Repr

structure RedisConfig where
  url : String
  useTls : Bool
  username : Option String
  password : Option String
  maxConnections : ℕ
  connectionTimeoutSecs : ℕ
  commandTimeoutSecs : ℕ

structure AppConfig where
  redis : RedisConfig
  rateLimits : RateLimitConfig

/-- `RedisConfig::default()`. -/
def RedisConfig.default : RedisConfig where
  url := "redis://localhost:6379"
  useTls := false
  username := none
  password := none
  maxConnections := 50
  connectionTimeoutSecs := 5
  commandTimeoutSecs := 2

def defaultRatePolicy : DomainConfig where
  domain := "default"
  prefixKey := "default"
  policies := [⟨"per_second", 10, 100⟩, ⟨"per_minute", 100 / 60, 1000⟩]

/-! ## The cache -/

/-- The lookup map is keyed by domain and prefix. -/
structure ConfigCache where
  policies : String × String → Option (List RatePolicy)
  defaultPolicy : List RatePolicy
  fullConfig : RateLimitConfig

/-- One insertion into the lookup map; an entry under the same key is lost. -/
def insertEntry (map : String × String → Option (List RatePolicy)) (entry : DomainConfig) :
    String × String → Option (List RatePolicy) :=
  fun key => if key = (entry.domain, entry.prefixKey) then some entry.policies else map key

def ConfigCache.new (config : RateLimitConfig) : ConfigCache where
  policies := config.domains.foldl insertEntry (fun _ => none)
  defaultPolicy := config.default.policies
  fullConfig := config

def ConfigCache.getPolicies (cache : ConfigCache) (domain prefixKey : String) :
    List RatePolicy :=
  (cache.policies (domain, prefixKey)).getD cache.defaultPolicy

def ConfigCache.getFullConfig (cache : ConfigCache) : RateLimitConfig := cache.fullConfig

/-! ## Validation -/

def validateRedisConfig (config : RedisConfig) : Except RateLimitError Unit :=
  if config.url = "" then
    .error (.configurationError "Redis URL cannot be empty")
  else if !"redis://".toList.isPrefixOf config.url.toList &&
      !"rediss://".toList.isPrefixOf config.url.toList then
    .error (.configurationError ("Invalid Redis URL format: " ++ config.url ++
      ". Must start with redis:// or rediss://"))
  else if config.maxConnections = 0 then
    .error (.configurationError "max_connections must be greater than 0")
  else if config.connectionTimeoutSecs = 0 then
    .error (.configurationError "connection_timeout_secs must be greater than 0")
  else if config.commandTimeoutSecs = 0 then
    .error (.configurationError "command_timeout_secs must be greater than 0")
  else .ok ()

def validateRatePolicy (policy : RatePolicy) (domain : String) (index : ℕ) :
    Except RateLimitError Unit :=
  if policy.name = "" then
    .error (.invalidRate ("Policy name cannot be empty for domain '" ++ domain ++
      "' policy " ++ toString index))
  else if policy.flowRatePerSecond ≤ 0 then
    .error (.invalidRate ("flow_rate_per_second must be positive for domain '" ++ domain ++
      "' policy '" ++ policy.name ++ "' (got " ++
      DecimalText.plain policy.flowRatePerSecond ++ ")"))
  else if policy.burstCapacity ≤ 0 then
    .error (.invalidRate ("burst_capacity must be positive for domain '" ++ domain ++
      "' policy '" ++ policy.name ++ "' (got " ++
      toString policy.burstCapacity.toInt ++ ")"))
  else .ok ()

def validateDomainConfig (config : DomainConfig) : Except RateLimitError Unit :=
  if config.domain = "" then
    .error (.configurationError "Domain name cannot be empty")
  else if config.prefixKey = "" then
    .error (.configurationError ("Prefix cannot be empty for domain '" ++ config.domain ++ "'"))
  else if config.policies = [] then
    .error (.configurationError ("Domain '" ++ config.domain ++
      "' must have at least one rate policy"))
  else config.policies.zipIdx.forM fun p => validateRatePolicy p.1 config.domain p.2

def validateConfig (config : AppConfig) : Except RateLimitError Unit := do
  validateRedisConfig config.redis
  config.rateLimits.domains.forM validateDomainConfig
  validateDomainConfig config.rateLimits.default

/-! ## What passes -/

/-- A loop with early return succeeds when every round does. -/
theorem forM_eq_ok_iff {α : Type} {f : α → Except RateLimitError Unit} {xs : List α} :
    xs.forM f = .ok () ↔ ∀ x ∈ xs, f x = .ok () := by
  induction xs with
  | nil => simp [pure, Except.pure]
  | cons x xs ih =>
      have hcons : (x :: xs).forM f = (f x >>= fun _ => xs.forM f) := rfl
      rw [hcons]
      cases hx : f x with
      | error e => simp [bind, Except.bind, hx]
      | ok u => simp only [bind, Except.bind, ih, List.forall_mem_cons, hx, true_and]

/-- A policy with a name, a flow rate above zero or incomparable with it, and
a positive burst. -/
def RatePolicy.Accepted (policy : RatePolicy) : Prop :=
  policy.name ≠ "" ∧ ¬policy.flowRatePerSecond ≤ 0 ∧ 0 < policy.burstCapacity.toInt

/-- A named entry with at least one policy, all of them accepted. -/
def DomainConfig.Accepted (config : DomainConfig) : Prop :=
  config.domain ≠ "" ∧ config.prefixKey ≠ "" ∧ config.policies ≠ [] ∧
    ∀ policy ∈ config.policies, policy.Accepted

theorem validateRatePolicy_ok_iff {policy : RatePolicy} {domain : String} {index : ℕ} :
    validateRatePolicy policy domain index = .ok () ↔ policy.Accepted := by
  have hburst : 0 < policy.burstCapacity.toInt ↔ ¬policy.burstCapacity ≤ 0 := by
    rw [Int64.le_iff_toInt_le, not_le]
    rfl
  unfold validateRatePolicy RatePolicy.Accepted
  rw [hburst]
  by_cases hname : policy.name = ""
  · simp [hname]
  · rw [if_neg hname]
    by_cases hflow : policy.flowRatePerSecond ≤ 0
    · rw [if_pos hflow]
      exact ⟨fun h => (nomatch h), fun h => absurd hflow h.2.1⟩
    · rw [if_neg hflow]
      by_cases hpos : policy.burstCapacity ≤ 0
      · rw [if_pos hpos]
        exact ⟨fun h => (nomatch h), fun h => absurd hpos h.2.2⟩
      · rw [if_neg hpos]
        exact ⟨fun _ => ⟨hname, hflow, hpos⟩, fun _ => rfl⟩

theorem validateDomainConfig_ok_iff {config : DomainConfig} :
    validateDomainConfig config = .ok () ↔ config.Accepted := by
  have hloop : (∀ p ∈ config.policies.zipIdx,
      validateRatePolicy p.1 config.domain p.2 = .ok ()) ↔
      ∀ policy ∈ config.policies, policy.Accepted := by
    simp only [validateRatePolicy_ok_iff]
    constructor
    · intro h policy hp
      obtain ⟨i, hi, rfl⟩ := List.mem_iff_getElem.mp hp
      exact h (config.policies[i], i) (List.mem_zipIdx_iff_getElem?.mpr (by simp [hi]))
    · intro h p hp
      exact h p.1 (List.fst_mem_of_mem_zipIdx hp)
  unfold validateDomainConfig DomainConfig.Accepted
  by_cases hdomain : config.domain = ""
  · simp [hdomain]
  · by_cases hprefix : config.prefixKey = ""
    · simp [hdomain, hprefix]
    · by_cases hpolicies : config.policies = []
      · simp [hdomain, hprefix, hpolicies]
      · simp only [hdomain, hprefix, hpolicies, if_false, not_false_eq_true, ne_eq, true_and]
        rw [forM_eq_ok_iff, hloop]

/-- **What the validator accepts.** -/
theorem validateConfig_ok_iff {config : AppConfig} :
    validateConfig config = .ok () ↔
      validateRedisConfig config.redis = .ok () ∧
        (∀ entry ∈ config.rateLimits.domains, entry.Accepted) ∧
        config.rateLimits.default.Accepted := by
  have hloop : config.rateLimits.domains.forM validateDomainConfig = .ok () ↔
      ∀ entry ∈ config.rateLimits.domains, entry.Accepted := by
    rw [forM_eq_ok_iff]
    simp only [validateDomainConfig_ok_iff]
  rw [← hloop, ← validateDomainConfig_ok_iff]
  unfold validateConfig
  cases validateRedisConfig config.redis with
  | error e => simp [bind, Except.bind]
  | ok u =>
      cases config.rateLimits.domains.forM validateDomainConfig with
      | error e => simp [bind, Except.bind]
      | ok u => simp [bind, Except.bind]

theorem validateRedisConfig_default : validateRedisConfig RedisConfig.default = .ok () := by
  decide

/-! ## How the validator fails -/

/-- The errors the validator reports: of the configuration, or of a rate. -/
def RateLimitError.OfValidation : RateLimitError → Prop
  | configurationError _ => True
  | invalidRate _ => True
  | _ => False

/-- A loop with early return fails with the error of one of its rounds. -/
theorem exists_of_forM_eq_error {α : Type} {f : α → Except RateLimitError Unit} {xs : List α}
    {e : RateLimitError} (h : xs.forM f = .error e) : ∃ x ∈ xs, f x = .error e := by
  induction xs with
  | nil => cases h
  | cons x xs ih =>
      have hcons : (x :: xs).forM f = (f x >>= fun _ => xs.forM f) := rfl
      rw [hcons] at h
      cases hx : f x with
      | error e' =>
          rw [hx] at h
          cases h
          exact ⟨x, List.mem_cons_self, hx⟩
      | ok u =>
          rw [hx] at h
          obtain ⟨y, hy, hfails⟩ := ih h
          exact ⟨y, List.mem_cons_of_mem x hy, hfails⟩

theorem validateRedisConfig_error {config : RedisConfig} {e : RateLimitError}
    (h : validateRedisConfig config = .error e) : e.OfValidation := by
  unfold validateRedisConfig at h
  repeat' split at h
  all_goals cases h
  all_goals trivial

theorem validateRatePolicy_error {policy : RatePolicy} {domain : String} {index : ℕ}
    {e : RateLimitError} (h : validateRatePolicy policy domain index = .error e) :
    e.OfValidation := by
  unfold validateRatePolicy at h
  repeat' split at h
  all_goals cases h
  all_goals trivial

theorem validateDomainConfig_error {config : DomainConfig} {e : RateLimitError}
    (h : validateDomainConfig config = .error e) : e.OfValidation := by
  unfold validateDomainConfig at h
  by_cases hdomain : config.domain = ""
  · rw [if_pos hdomain] at h
    cases h
    trivial
  · by_cases hprefix : config.prefixKey = ""
    · rw [if_neg hdomain, if_pos hprefix] at h
      cases h
      trivial
    · by_cases hpolicies : config.policies = []
      · rw [if_neg hdomain, if_neg hprefix, if_pos hpolicies] at h
        cases h
        trivial
      · rw [if_neg hdomain, if_neg hprefix, if_neg hpolicies] at h
        obtain ⟨x, _, hfails⟩ := exists_of_forM_eq_error h
        exact validateRatePolicy_error hfails

/-- **What the validator reports.** -/
theorem validateConfig_error {config : AppConfig} {e : RateLimitError}
    (h : validateConfig config = .error e) : e.OfValidation := by
  unfold validateConfig at h
  cases hredis : validateRedisConfig config.redis with
  | error e' =>
      rw [hredis] at h
      cases h
      exact validateRedisConfig_error hredis
  | ok u =>
      rw [hredis] at h
      cases hdomains : config.rateLimits.domains.forM validateDomainConfig with
      | error e' =>
          simp only [bind, Except.bind, hdomains] at h
          cases h
          obtain ⟨entry, _, hfails⟩ := exists_of_forM_eq_error hdomains
          exact validateDomainConfig_error hfails
      | ok u =>
          simp only [bind, Except.bind, hdomains] at h
          exact validateDomainConfig_error h

/-! ## Valid policies -/

/-- A policy with a finite positive flow rate, a positive burst and a name. -/
structure ValidPolicy where
  policy : RatePolicy
  flow : ℚ
  flow_eq : policy.flowRatePerSecond = F64.fin flow
  flow_pos : 0 < flow
  burst_pos : 0 < policy.burstCapacity.toInt
  named : policy.name ≠ ""

/-- The burst capacity as the script's number. -/
def ValidPolicy.burst (policy : ValidPolicy) : ℚ := policy.policy.burstCapacity.toInt

theorem ValidPolicy.burst_rat_pos (policy : ValidPolicy) : 0 < policy.burst :=
  Int.cast_pos.mpr policy.burst_pos

/-- The valid policy with these numbers. -/
def ValidPolicy.ofRates (name : String) (flow : ℚ) (burst : Int64) (hname : name ≠ "")
    (hflow : 0 < flow) (hburst : 0 < burst.toInt) : ValidPolicy :=
  ⟨⟨name, .fin flow, burst⟩, flow, rfl, hflow, hburst, hname⟩

/-- A nonempty list of valid policies. -/
structure ValidPolicies where
  policies : List ValidPolicy
  nonempty : policies ≠ []

/-- One policy that leaks a token a second. -/
def ValidPolicies.perSecond (burst : Int64) (hburst : 0 < burst.toInt) : ValidPolicies :=
  ⟨[.ofRates "per_second" 1 burst (by decide) one_pos hburst], List.cons_ne_nil _ _⟩

/-- A token a second, up to a single one. -/
def ValidPolicies.oneToken : ValidPolicies := .perSecond 1 (by decide)

/-- A token a second, up to five. -/
def ValidPolicies.fiveTokens : ValidPolicies := .perSecond 5 (by decide)

/-- There is a first policy. -/
theorem ValidPolicies.exists_first (P : ValidPolicies) : ∃ policy, P.policies[0]? = some policy :=
  Option.isSome_iff_exists.mp (by simpa [List.length_pos_iff] using P.nonempty)

theorem ValidPolicies.exists_mem_zipIdx (P : ValidPolicies) : ∃ x, x ∈ P.policies.zipIdx :=
  List.exists_mem_of_ne_nil _ (by simpa using P.nonempty)

/-- The policies as the configuration lists them. -/
def ValidPolicies.raw (P : ValidPolicies) : List RatePolicy := P.policies.map ValidPolicy.policy

def RatePolicy.FiniteFlow (policy : RatePolicy) : Prop :=
  ∃ flow, policy.flowRatePerSecond = F64.fin flow

/-- Every flow rate of the entry is finite. -/
def DomainConfig.FiniteFlows (config : DomainConfig) : Prop :=
  ∀ policy ∈ config.policies, policy.FiniteFlow

/-- Every flow rate of the configuration is finite. -/
def RateLimitConfig.FiniteFlows (config : RateLimitConfig) : Prop :=
  (∀ entry ∈ config.domains, entry.FiniteFlows) ∧ config.default.FiniteFlows

/-- The default policies have finite flow rates. -/
theorem defaultRatePolicy_finite : defaultRatePolicy.FiniteFlows := by
  have hminute : (100 / 60 : F64) = .fin (100 / 60) := F64.fin_div_fin _ _ (by norm_num)
  intro policy hpolicy
  simp only [defaultRatePolicy, List.mem_cons, List.not_mem_nil, or_false] at hpolicy
  rcases hpolicy with rfl | rfl
  · exact ⟨10, rfl⟩
  · exact ⟨_, hminute⟩

theorem RatePolicy.Accepted.exists_valid {policy : RatePolicy} (h : policy.Accepted)
    (hfinite : policy.FiniteFlow) : ∃ valid : ValidPolicy, valid.policy = policy := by
  obtain ⟨hname, hflow, hburst⟩ := h
  obtain ⟨flow, hfin⟩ := hfinite
  have hpos : 0 < flow := by
    rw [hfin] at hflow
    simpa using hflow
  exact ⟨⟨policy, flow, hfin, hpos, hburst, hname⟩, rfl⟩

/-- An accepted entry with finite flow rates lists valid policies. -/
theorem DomainConfig.Accepted.exists_valid {config : DomainConfig} (h : config.Accepted)
    (hfinite : config.FiniteFlows) : ∃ P : ValidPolicies, P.raw = config.policies := by
  obtain ⟨_, _, hne, hpolicies⟩ := h
  have hlist : ∀ policies : List RatePolicy,
      (∀ policy ∈ policies, policy.Accepted ∧ policy.FiniteFlow) →
      ∃ valid : List ValidPolicy, valid.map ValidPolicy.policy = policies := by
    intro policies
    induction policies with
    | nil => exact fun _ => ⟨[], rfl⟩
    | cons policy policies ih =>
        intro hall
        obtain ⟨hhead, htail⟩ := List.forall_mem_cons.mp hall
        obtain ⟨valid, hvalid⟩ := hhead.1.exists_valid hhead.2
        obtain ⟨rest, hrest⟩ := ih htail
        exact ⟨valid :: rest, by rw [List.map_cons, hvalid, hrest]⟩
  obtain ⟨valid, hvalid⟩ := hlist config.policies
    (fun policy hp => ⟨hpolicies policy hp, hfinite policy hp⟩)
  refine ⟨⟨valid, ?_⟩, hvalid⟩
  intro hnil
  rw [hnil] at hvalid
  exact hne hvalid.symm

/-! ## Lookups -/

/-- The entry the map holds for a key is the last one listed under it. -/
theorem insertEntries_eq (domains : List DomainConfig) (key : String × String) :
    domains.foldl insertEntry (fun _ => none) key =
      (domains.reverse.find? (fun entry => decide (key = (entry.domain, entry.prefixKey)))).map
        DomainConfig.policies := by
  induction domains using List.reverseRecOn with
  | nil => rfl
  | append_singleton domains entry ih =>
      rw [List.foldl_append, List.foldl_cons, List.foldl_nil, insertEntry, List.reverse_append]
      by_cases hkey : key = (entry.domain, entry.prefixKey)
      · simp [hkey]
      · simpa [hkey] using ih

/-- The policies looked up are those of some entry, or the default ones. -/
theorem getPolicies_mem (config : RateLimitConfig) (domain prefixKey : String) :
    (∃ entry ∈ config.domains,
      (ConfigCache.new config).getPolicies domain prefixKey = entry.policies) ∨
    (ConfigCache.new config).getPolicies domain prefixKey = config.default.policies := by
  have hmap : (ConfigCache.new config).policies (domain, prefixKey) = _ :=
    insertEntries_eq config.domains (domain, prefixKey)
  rw [ConfigCache.getPolicies, hmap]
  cases hfind : config.domains.reverse.find?
      (fun entry => decide ((domain, prefixKey) = (entry.domain, entry.prefixKey))) with
  | none => exact Or.inr rfl
  | some entry =>
      exact Or.inl ⟨entry, List.mem_reverse.mp (List.mem_of_find?_eq_some hfind), rfl⟩

/-- The cache answers every lookup with valid policies. -/
def ConfigCache.Valid (cache : ConfigCache) : Prop :=
  ∀ domain prefixKey, ∃ P : ValidPolicies, P.raw = cache.getPolicies domain prefixKey

/-- A cache built from an accepted configuration with finite flow rates is valid,
also for keys that are not configured. -/
theorem ConfigCache.new_valid {config : RateLimitConfig}
    (haccepted : ∀ entry ∈ config.domains, entry.Accepted) (hdefault : config.default.Accepted)
    (hfinite : config.FiniteFlows) : (ConfigCache.new config).Valid := by
  intro domain prefixKey
  rcases getPolicies_mem config domain prefixKey with ⟨entry, hentry, heq⟩ | heq
  · rw [heq]
    exact (haccepted entry hentry).exists_valid (hfinite.1 entry hentry)
  · rw [heq]
    exact hdefault.exists_valid hfinite.2

end Limitr
