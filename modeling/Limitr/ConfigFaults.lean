import Limitr.Environment

/-!
# Which fault ends the process

The validator checks the entries of a configuration in order and the policies of an
entry in order, and stops at the first check that fails.  The loader reads, parses
and validates the file before it looks at the Redis settings, which it checks with
the whole configuration around them a second time.

What ends the process is therefore the first fault in this order, and the error
names it: `configure_error_iff` says so for every environment and every file.
-/

namespace Limitr

/-- The first check of a policy that fails, and the error it gives. -/
inductive RatePolicy.Fault (policy : RatePolicy) (domain : String) (index : ℕ) :
    RateLimitError → Prop
  | name (hname : policy.name = "") : Fault policy domain index
      (.invalidRate ("Policy name cannot be empty for domain '" ++ domain ++ "' policy " ++
        toString index))
  | flow (hname : policy.name ≠ "") (hflow : policy.flowRatePerSecond ≤ 0) :
      Fault policy domain index
      (.invalidRate ("flow_rate_per_second must be positive for domain '" ++ domain ++
        "' policy '" ++ policy.name ++ "' (got " ++
        DecimalText.plain policy.flowRatePerSecond ++ ")"))
  | burst (hname : policy.name ≠ "") (hflow : ¬policy.flowRatePerSecond ≤ 0)
      (hburst : policy.burstCapacity.toInt ≤ 0) : Fault policy domain index
      (.invalidRate ("burst_capacity must be positive for domain '" ++ domain ++
        "' policy '" ++ policy.name ++ "' (got " ++ toString policy.burstCapacity.toInt ++ ")"))

/-- The first check of an entry that fails: one of its own, or one of the first of its
policies that is not accepted. -/
inductive DomainConfig.Fault (config : DomainConfig) : RateLimitError → Prop
  | domain (hdomain : config.domain = "") :
      Fault config (.configurationError "Domain name cannot be empty")
  | prefixKey (hdomain : config.domain ≠ "") (hpre : config.prefixKey = "") :
      Fault config (.configurationError ("Prefix cannot be empty for domain '" ++
        config.domain ++ "'"))
  | policies (hdomain : config.domain ≠ "") (hpre : config.prefixKey ≠ "")
      (hpolicies : config.policies = []) :
      Fault config (.configurationError ("Domain '" ++ config.domain ++
        "' must have at least one rate policy"))
  | policy {e : RateLimitError} (before : List RatePolicy) (policy : RatePolicy)
      (after : List RatePolicy) (hdomain : config.domain ≠ "") (hpre : config.prefixKey ≠ "")
      (hsplit : config.policies = before ++ policy :: after)
      (hbefore : ∀ passed ∈ before, passed.Accepted)
      (hfault : policy.Fault config.domain before.length e) : Fault config e

/-- The first check of the Redis settings that fails. -/
inductive RedisConfig.Fault (config : RedisConfig) : RateLimitError → Prop
  | empty (hurl : config.url = "") :
      Fault config (.configurationError "Redis URL cannot be empty")
  | scheme (hurl : config.url ≠ "")
      (hscheme : ¬HasScheme config.url) :
      Fault config (.configurationError ("Invalid Redis URL format: " ++ config.url ++
        ". Must start with redis:// or rediss://"))
  | connections (hscheme : HasScheme config.url) (hconnections : config.maxConnections = 0) :
      Fault config (.configurationError "max_connections must be greater than 0")
  | connect (hscheme : HasScheme config.url) (hconnections : config.maxConnections ≠ 0)
      (hconnect : config.connectionTimeoutSecs = 0) :
      Fault config (.configurationError "connection_timeout_secs must be greater than 0")
  | command (hscheme : HasScheme config.url) (hconnections : config.maxConnections ≠ 0)
      (hconnect : config.connectionTimeoutSecs ≠ 0) (hcommand : config.commandTimeoutSecs = 0) :
      Fault config (.configurationError "command_timeout_secs must be greater than 0")

/-- The first of a list of entries that is not accepted, and its fault. -/
inductive FirstFault (entries : List DomainConfig) : RateLimitError → Prop
  | entry {e : RateLimitError} (before : List DomainConfig) (entry : DomainConfig)
      (after : List DomainConfig) (hsplit : entries = before ++ entry :: after)
      (hbefore : ∀ passed ∈ before, passed.Accepted) (hfault : entry.Fault e) :
      FirstFault entries e

/-- What keeps a file from being loaded: it cannot be read, or parsed, or an entry of
it is not accepted, the default after all others. -/
inductive FileFault (parser : ConfigParser) (file : FileRead) : RateLimitError → Prop
  | unreadable (message : String) (hread : file = .error message) :
      FileFault parser file (.fileSystemError message)
  | unparsable (contents message : String) (hread : file = .ok contents)
      (hparse : parser.fromStr contents = .error message) :
      FileFault parser file (.jsonError message)
  | rejected {e : RateLimitError} (contents : String) (config : RateLimitConfig)
      (hread : file = .ok contents) (hparse : parser.fromStr contents = .ok config)
      (hfault : FirstFault (config.domains ++ [config.default]) e) : FileFault parser file e

/-- What keeps the process from starting: its file, and then the Redis settings. -/
inductive StartFault (parser : ConfigParser) (env : Environment)
    (files : String → FileRead) : RateLimitError → Prop
  | file {e : RateLimitError} (hfault : FileFault parser (files (configPath env)) e) :
      StartFault parser env files e
  | settings {e : RateLimitError} (config : RateLimitConfig)
      (hgood : Good parser (files (configPath env)) config)
      (hfault : (RedisConfig.fromEnv env).Fault e) : StartFault parser env files e

variable {e : RateLimitError}

/-! ## Checks and loops -/

/-- **How a loop with early return fails**: with the error of its first round that
fails. -/
theorem forM_eq_error_iff {α : Type} {f : α → Except RateLimitError Unit} {xs : List α} :
    xs.forM f = .error e ↔ ∃ before x after, xs = before ++ x :: after ∧
      (∀ passed ∈ before, f passed = .ok ()) ∧ f x = .error e := by
  induction xs with
  | nil => simp [pure, Except.pure]
  | cons x xs ih =>
      have hcons : (x :: xs).forM f = (f x >>= fun _ => xs.forM f) := rfl
      rw [hcons]
      cases hx : f x with
      | error e' =>
          constructor
          · intro h
            cases h
            exact ⟨[], x, xs, rfl, List.forall_mem_nil _, hx⟩
          · intro h
            obtain ⟨before, y, after, hsplit, hbefore, hy⟩ := h
            cases before with
            | nil =>
                obtain ⟨rfl, _⟩ := List.cons.inj hsplit
                exact hx.symm.trans hy
            | cons z before =>
                -- a round that fails cannot come before the first that does
                obtain ⟨rfl, _⟩ := List.cons.inj hsplit
                rw [hbefore x List.mem_cons_self] at hx
                cases hx
      | ok u =>
          change xs.forM f = .error e ↔ _
          rw [ih]
          constructor
          · intro h
            obtain ⟨before, y, after, hsplit, hbefore, hy⟩ := h
            exact ⟨x :: before, y, after, by rw [hsplit, List.cons_append],
              List.forall_mem_cons.mpr ⟨hx, hbefore⟩, hy⟩
          · intro h
            obtain ⟨before, y, after, hsplit, hbefore, hy⟩ := h
            cases before with
            | nil =>
                obtain ⟨rfl, _⟩ := List.cons.inj hsplit
                rw [hx] at hy
                cases hy
            | cons z before =>
                obtain ⟨_, htail⟩ := List.cons.inj hsplit
                exact ⟨before, y, after, htail, (List.forall_mem_cons.mp hbefore).2, hy⟩

theorem validateRatePolicy_error_iff {policy : RatePolicy} {domain : String} {index : ℕ} :
    validateRatePolicy policy domain index = .error e ↔ policy.Fault domain index e := by
  have hburst : policy.burstCapacity ≤ 0 ↔ policy.burstCapacity.toInt ≤ 0 :=
    Int64.le_iff_toInt_le
  unfold validateRatePolicy
  constructor
  · intro h
    split_ifs at h with hname hflow hpos <;> cases h
    · exact .name hname
    · exact .flow hname hflow
    · exact .burst hname hflow (hburst.mp hpos)
  · intro h
    cases h with
    | name hname => rw [if_pos hname]
    | flow hname hflow => rw [if_neg hname, if_pos hflow]
    | burst hname hflow hpos => rw [if_neg hname, if_neg hflow, if_pos (hburst.mpr hpos)]

theorem validateRedisConfig_error_iff {config : RedisConfig} :
    validateRedisConfig config = .error e ↔ config.Fault e := by
  have hempty : HasScheme config.url → config.url ≠ "" := by
    intro hscheme hurl
    simp [HasScheme, hurl] at hscheme
  have hscheme_iff := schemeless_iff config.url
  have hasScheme : ¬(!"redis://".toList.isPrefixOf config.url.toList &&
      !"rediss://".toList.isPrefixOf config.url.toList) = true → HasScheme config.url :=
    fun h => not_not.mp fun hnone => h (hscheme_iff.mpr hnone)
  unfold validateRedisConfig
  constructor
  · intro h
    split_ifs at h with hurl hscheme hconnections hconnect hcommand <;> cases h
    · exact .empty hurl
    · exact .scheme hurl (hscheme_iff.mp hscheme)
    · exact .connections (hasScheme hscheme) hconnections
    · exact .connect (hasScheme hscheme) hconnections hconnect
    · exact .command (hasScheme hscheme) hconnections hconnect hcommand
  · intro h
    cases h with
    | empty hurl => rw [if_pos hurl]
    | scheme hurl hscheme => rw [if_neg hurl, if_pos (hscheme_iff.mpr hscheme)]
    | connections hscheme hconnections =>
        rw [if_neg (hempty hscheme), if_neg (not_schemeless hscheme), if_pos hconnections]
    | connect hscheme hconnections hconnect =>
        rw [if_neg (hempty hscheme), if_neg (not_schemeless hscheme), if_neg hconnections,
          if_pos hconnect]
    | command hscheme hconnections hconnect hcommand =>
        rw [if_neg (hempty hscheme), if_neg (not_schemeless hscheme), if_neg hconnections,
          if_neg hconnect, if_pos hcommand]

/-- The loop over the policies fails at the first that is not accepted. -/
theorem validatePolicies_error_iff {policies : List RatePolicy} {domain : String} :
    (policies.zipIdx.forM fun p => validateRatePolicy p.1 domain p.2) = .error e ↔
      ∃ before policy after, policies = before ++ policy :: after ∧
        (∀ passed ∈ before, passed.Accepted) ∧ policy.Fault domain before.length e := by
  rw [forM_eq_error_iff]
  constructor
  · intro h
    obtain ⟨before, x, after, hsplit, hbefore, hfault⟩ := h
    have hpolicies : policies = before.map Prod.fst ++ x.1 :: after.map Prod.fst := by
      have hfst := congrArg (List.map Prod.fst) hsplit
      rwa [List.zipIdx_map_fst, List.map_append, List.map_cons] at hfst
    have hindex : x.2 = before.length := by
      have hget : policies.zipIdx[before.length]? = some x := by simp [hsplit]
      rw [List.getElem?_zipIdx] at hget
      obtain ⟨policy, _, rfl⟩ := Option.map_eq_some_iff.mp hget
      exact Nat.zero_add _
    refine ⟨before.map Prod.fst, x.1, after.map Prod.fst, hpolicies, ?_, ?_⟩
    · intro passed hpassed
      obtain ⟨y, hy, rfl⟩ := List.mem_map.mp hpassed
      exact validateRatePolicy_ok_iff.mp (hbefore y hy)
    · rw [List.length_map, ← hindex]
      exact validateRatePolicy_error_iff.mp hfault
  · intro h
    obtain ⟨before, policy, after, rfl, hbefore, hfault⟩ := h
    refine ⟨before.zipIdx, (policy, before.length), after.zipIdx (before.length + 1), ?_, ?_,
      validateRatePolicy_error_iff.mpr hfault⟩
    · rw [List.zipIdx_append, List.zipIdx_cons, Nat.zero_add]
    · intro x hx
      exact validateRatePolicy_ok_iff.mpr (hbefore x.1 (List.fst_mem_of_mem_zipIdx hx))

theorem validateDomainConfig_error_iff {config : DomainConfig} :
    validateDomainConfig config = .error e ↔ config.Fault e := by
  unfold validateDomainConfig
  constructor
  · intro h
    split_ifs at h with hdomain hpre hpolicies
    · cases h
      exact .domain hdomain
    · cases h
      exact .prefixKey hdomain hpre
    · cases h
      exact .policies hdomain hpre hpolicies
    · obtain ⟨before, policy, after, hsplit, hbefore, hfault⟩ := validatePolicies_error_iff.mp h
      exact .policy before policy after hdomain hpre hsplit hbefore hfault
  · intro h
    cases h with
    | domain hdomain => rw [if_pos hdomain]
    | prefixKey hdomain hpre => rw [if_neg hdomain, if_pos hpre]
    | policies hdomain hpre hpolicies =>
        rw [if_neg hdomain, if_neg hpre, if_pos hpolicies]
    | policy before policy after hdomain hpre hsplit hbefore hfault =>
        have hpolicies : config.policies ≠ [] := by
          rw [hsplit]
          exact List.append_ne_nil_of_right_ne_nil before (List.cons_ne_nil policy after)
        rw [if_neg hdomain, if_neg hpre, if_neg hpolicies]
        exact validatePolicies_error_iff.mpr ⟨before, policy, after, hsplit, hbefore, hfault⟩

/-- The entries, the default last, are one list to the validator. -/
theorem validateConfig_eq_forM (config : AppConfig) :
    validateConfig config = (validateRedisConfig config.redis >>= fun _ =>
      (config.rateLimits.domains ++ [config.rateLimits.default]).forM validateDomainConfig) := by
  simp [validateConfig]

/-- **How the validator fails.** -/
theorem validateConfig_error_iff {config : AppConfig} :
    validateConfig config = .error e ↔ config.redis.Fault e ∨
      (validateRedisConfig config.redis = .ok () ∧
        FirstFault (config.rateLimits.domains ++ [config.rateLimits.default]) e) := by
  have hentries : (config.rateLimits.domains ++ [config.rateLimits.default]).forM
      validateDomainConfig = .error e ↔
      FirstFault (config.rateLimits.domains ++ [config.rateLimits.default]) e := by
    rw [forM_eq_error_iff]
    constructor
    · intro h
      obtain ⟨before, entry, after, hsplit, hbefore, hfault⟩ := h
      exact .entry before entry after hsplit
        (fun passed hpassed => validateDomainConfig_ok_iff.mp (hbefore passed hpassed))
        (validateDomainConfig_error_iff.mp hfault)
    · intro h
      obtain ⟨before, entry, after, hsplit, hbefore, hfault⟩ := h
      exact ⟨before, entry, after, hsplit,
        fun passed hpassed => validateDomainConfig_ok_iff.mpr (hbefore passed hpassed),
        validateDomainConfig_error_iff.mpr hfault⟩
  rw [validateConfig_eq_forM, ← hentries, ← validateRedisConfig_error_iff]
  cases validateRedisConfig config.redis with
  | error e' => simp [bind, Except.bind]
  | ok u => simp [bind, Except.bind]

/-- The Redis settings beside a file have no fault of their own, so that its entries
are all the validator can find fault with. -/
theorem validateConfig_default_error_iff {config : RateLimitConfig} :
    validateConfig ⟨.default, config⟩ = .error e ↔
      FirstFault (config.domains ++ [config.default]) e := by
  have hnone : ¬RedisConfig.default.Fault e := by
    rw [← validateRedisConfig_error_iff, validateRedisConfig_default]
    exact nofun
  rw [validateConfig_error_iff, or_iff_right hnone]
  exact and_iff_right validateRedisConfig_default

/-- **Why a file is not loaded.** -/
theorem load_error_iff {parser : ConfigParser} {file : FileRead} (m : Metrics) :
    (loadRateLimitConfigFromFile parser file m).1 = .error e ↔ FileFault parser file e := by
  unfold loadRateLimitConfigFromFile
  constructor
  · intro h
    cases file with
    | error message =>
        cases h
        exact .unreadable message rfl
    | ok contents =>
        dsimp only at h
        cases hparse : parser.fromStr contents with
        | error message =>
            rw [hparse] at h
            cases h
            exact .unparsable contents message rfl hparse
        | ok config =>
            rw [hparse] at h
            dsimp only at h
            cases hvalid : validateConfig ⟨.default, config⟩ with
            | error e' =>
                rw [hvalid] at h
                cases h
                exact .rejected contents config rfl hparse
                  (validateConfig_default_error_iff.mp hvalid)
            | ok u =>
                rw [hvalid] at h
                cases h
  · intro h
    cases h with
    | unreadable message hread => rw [hread]
    | unparsable contents message hread hparse =>
        rw [hread]
        dsimp only
        rw [hparse]
    | rejected contents config hread hparse hfault =>
        rw [hread]
        dsimp only
        rw [hparse]
        dsimp only
        rw [validateConfig_default_error_iff.mpr hfault]

/-- Beside a good configuration only the Redis settings can be at fault. -/
theorem Good.validateConfig_error_iff {parser : ConfigParser} {file : FileRead}
    {config : RateLimitConfig} (hgood : Good parser file config) (redis : RedisConfig) :
    validateConfig ⟨redis, config⟩ = .error e ↔ redis.Fault e := by
  obtain ⟨_, _, _, hvalid⟩ := hgood
  have hentries : ¬FirstFault (config.domains ++ [config.default]) e := by
    rw [← validateConfig_default_error_iff, hvalid]
    exact nofun
  rw [Limitr.validateConfig_error_iff]
  exact or_iff_left fun h => hentries h.2

end Limitr
