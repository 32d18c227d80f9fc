import Limitr.Configuration
import Limitr.LastMatch
import Limitr.Metrics

/-!
# Loading and reloading the configuration

The loader reads the configuration file, parses it and validates what it finds.
At startup a failure of any of the three ends the process; afterwards the
watcher runs the loader again on every event that may have changed the file,
and only a success replaces the cache the handlers read.

Parsing is a parameter: a partial function from texts to what the file says,
in which every flow rate is finite.  A message of the watcher comes with what a
read of the file gives while it is handled, so that a run of messages ranges
over every history of the file.

`live_config_is_last_good` says that what is live is always the last
configuration that could be read, parsed and accepted, whatever happened to the
file since.
-/

namespace Limitr

open LastMatch

/-- What a configuration file says; both of its fields may be absent. -/
structure RateLimitFile where
  domains : Option (List DomainConfig)
  default : Option DomainConfig

/-- The configuration of a file, with absent fields filled in. -/
def RateLimitFile.config (file : RateLimitFile) : RateLimitConfig where
  domains := file.domains.getD []
  default := file.default.getD defaultRatePolicy

/-- A parser of configuration files; a number it reads is finite. -/
structure ConfigParser where
  parse : String → Except String RateLimitFile
  finite_domains : ∀ text file, parse text = .ok file →
    ∀ domains ∈ file.domains, ∀ entry ∈ domains, entry.FiniteFlows
  finite_default : ∀ text file, parse text = .ok file →
    ∀ entry ∈ file.default, entry.FiniteFlows

/-- The parser at the type of configurations. -/
def ConfigParser.fromStr (parser : ConfigParser) (contents : String) :
    Except String RateLimitConfig :=
  (parser.parse contents).map RateLimitFile.config

/-- What reading the file gives: an error, or its contents. -/
abbrev FileRead := Except String String

/-! ## The loader -/

def loadRateLimitConfigFromFile (parser : ConfigParser) (file : FileRead) (m : Metrics) :
    Except RateLimitError RateLimitConfig × Metrics :=
  match file with
  | .error e => (.error (.fileSystemError e), m)
  | .ok contents =>
      match parser.fromStr contents with
      | .error e => (.error (.jsonError e), m)
      | .ok config =>
          match validateConfig ⟨.default, config⟩ with
          | .error e => (.error e, m)
          | .ok () => (.ok config, m.updateConfigMetrics config.domains.length)

/-- The whole configuration, with the Redis settings of the environment. -/
def loadConfig (parser : ConfigParser) (redis : RedisConfig) (file : FileRead) (m : Metrics) :
    Except RateLimitError AppConfig × Metrics :=
  match loadRateLimitConfigFromFile parser file m with
  | (.error e, m) => (.error e, m)
  | (.ok config, m) =>
      match validateConfig ⟨redis, config⟩ with
      | .error e => (.error e, m)
      | .ok () => (.ok ⟨redis, config⟩, m)

def buildConfigCache (config : AppConfig) : ConfigCache := .new config.rateLimits

/-! ## The watcher -/

/-- The cache the handlers share, and the metrics of the process. -/
structure LiveConfig where
  cache : ConfigCache
  metrics : Metrics

/-- The kinds of file system events. -/
inductive EventKind where
  | any
  | access
  | create
  | modify
  | remove
  | other
  deriving DecidableEq

/-- A message of the watcher, and what a read of the file would give. -/
structure Message where
  event : Except String EventKind
  file : FileRead

def shouldReload : EventKind → Bool
  | .modify => true
  | .create => true
  | _ => false

variable (parser : ConfigParser)

def reloadConfig (file : FileRead) (s : LiveConfig) : LiveConfig :=
  match loadRateLimitConfigFromFile parser file s.metrics with
  -- The three expected failures are logged and not counted.
  | (.error (.fileSystemError _), m) => ⟨s.cache, m⟩
  | (.error (.jsonError _), m) => ⟨s.cache, m⟩
  | (.error (.configurationError _), m) => ⟨s.cache, m⟩
  | (.error _, m) => ⟨s.cache, m.recordConfigReload false⟩
  | (.ok config, m) => ⟨.new config, m.recordConfigReload true⟩

/-- One round of the watcher's loop. -/
def handleMessage (s : LiveConfig) (message : Message) : LiveConfig :=
  match message.event with
  | .error _ => ⟨s.cache, s.metrics.recordConfigReload false⟩
  | .ok kind => if shouldReload kind then reloadConfig parser message.file s else s

def watchConfigFile (s : LiveConfig) (messages : List Message) : LiveConfig :=
  messages.foldl (handleMessage parser) s

/-- The process up to the start of the watcher. -/
def startup (redis : RedisConfig) (file : FileRead) : Except RateLimitError LiveConfig :=
  match loadConfig parser redis file .start with
  | (.error e, _) => .error e
  | (.ok config, m) => .ok ⟨buildConfigCache config, m⟩

/-! ## Good configurations -/

/-- The read gave a text, the text parses to the configuration, and the
validator accepts it. -/
def Good (file : FileRead) (config : RateLimitConfig) : Prop :=
  ∃ contents, file = .ok contents ∧ parser.fromStr contents = .ok config ∧
    validateConfig ⟨.default, config⟩ = .ok ()

/-- The last of the reads that gave a good configuration gave this one. -/
def LastGood (files : List FileRead) (config : RateLimitConfig) : Prop :=
  ∃ file, IsLast (fun read => ∃ good, Good parser read good) files file ∧
    Good parser file config

/-- The read a message leads to, if it leads to one. -/
def Message.attempt (message : Message) : Option FileRead :=
  match message.event with
  | .error _ => none
  | .ok kind => if shouldReload kind then some message.file else none

variable {parser}

/-- A configuration is good when its own entries are accepted: the Redis
settings the loader puts beside it always pass. -/
theorem good_iff {file : FileRead} {config : RateLimitConfig} :
    Good parser file config ↔ ∃ contents, file = .ok contents ∧
      parser.fromStr contents = .ok config ∧ (∀ entry ∈ config.domains, entry.Accepted) ∧
        config.default.Accepted := by
  have hvalid : validateConfig ⟨.default, config⟩ = .ok () ↔
      (∀ entry ∈ config.domains, entry.Accepted) ∧ config.default.Accepted := by
    rw [validateConfig_ok_iff]
    exact and_iff_right validateRedisConfig_default
  simp only [Good, hvalid]

theorem Good.unique {file : FileRead} {config config' : RateLimitConfig}
    (h : Good parser file config) (h' : Good parser file config') : config = config' := by
  obtain ⟨contents, rfl, hparse, _⟩ := h
  obtain ⟨contents', hfile, hparse', _⟩ := h'
  obtain rfl := Except.ok.inj hfile
  exact Except.ok.inj (hparse.symm.trans hparse')

theorem LastGood.of_good {file : FileRead} {config : RateLimitConfig}
    (h : Good parser file config) (files : List FileRead) :
    LastGood parser (files ++ [file]) config :=
  ⟨file, isLast_append_self ⟨config, h⟩ files, h⟩

/-- A read that gives nothing good leaves the last good one the last. -/
theorem LastGood.append {files : List FileRead} {file : FileRead} {config : RateLimitConfig}
    (h : LastGood parser files config) (hbad : ∀ other, ¬Good parser file other) :
    LastGood parser (files ++ [file]) config := by
  obtain ⟨last, hlast, hgood⟩ := h
  exact ⟨last, hlast.append (not_exists.mpr hbad), hgood⟩

/-- There is one last good configuration at most. -/
theorem LastGood.unique {files : List FileRead} {config config' : RateLimitConfig}
    (h : LastGood parser files config) (h' : LastGood parser files config') :
    config = config' := by
  obtain ⟨file, hlast, hgood⟩ := h
  obtain ⟨file', hlast', hgood'⟩ := h'
  obtain rfl := hlast.unique hlast'
  exact hgood.unique hgood'

/-! ## What the loader does -/

variable (parser) in
/-- **The two ways a load ends.**  With a good configuration, whose number of
entries becomes the gauge, or with an error that changes nothing. -/
theorem load_cases (file : FileRead) (m : Metrics) :
    (∃ config, Good parser file config ∧ loadRateLimitConfigFromFile parser file m =
      (.ok config, m.updateConfigMetrics config.domains.length)) ∨
    (∃ e, (∀ config, ¬Good parser file config) ∧
      loadRateLimitConfigFromFile parser file m = (.error e, m)) := by
  cases file with
  | error e =>
      refine Or.inr ⟨.fileSystemError e, ?_, rfl⟩
      intro config hgood
      obtain ⟨_, hread, _⟩ := hgood
      exact nomatch hread
  | ok contents =>
      cases hparse : parser.fromStr contents with
      | error e =>
          refine Or.inr ⟨.jsonError e, ?_, by simp only [loadRateLimitConfigFromFile, hparse]⟩
          intro config hgood
          obtain ⟨_, hread, hok, _⟩ := hgood
          obtain rfl := Except.ok.inj hread
          exact nomatch hparse.symm.trans hok
      | ok config =>
          cases hvalid : validateConfig ⟨.default, config⟩ with
          | error e =>
              refine Or.inr ⟨e, ?_, by simp only [loadRateLimitConfigFromFile, hparse, hvalid]⟩
              intro other hgood
              obtain ⟨_, hread, hok, haccepted⟩ := hgood
              obtain rfl := Except.ok.inj hread
              obtain rfl := Except.ok.inj (hparse.symm.trans hok)
              exact nomatch hvalid.symm.trans haccepted
          | ok u =>
              exact Or.inl ⟨config, ⟨contents, rfl, hparse, hvalid⟩,
                by simp only [loadRateLimitConfigFromFile, hparse, hvalid]⟩

/-- The configuration of a parsed file has finite flow rates, filled in or not. -/
theorem fromStr_finite {contents : String} {config : RateLimitConfig}
    (h : parser.fromStr contents = .ok config) : config.FiniteFlows := by
  unfold ConfigParser.fromStr at h
  cases hparse : parser.parse contents with
  | error e =>
      rw [hparse] at h
      exact nomatch h
  | ok file =>
      rw [hparse] at h
      obtain rfl : file.config = config := Except.ok.inj h
      constructor
      · intro entry hentry
        cases hdomains : file.domains with
        | none =>
            rw [RateLimitFile.config, hdomains] at hentry
            exact nomatch hentry
        | some domains =>
            rw [RateLimitFile.config, hdomains] at hentry
            exact parser.finite_domains contents file hparse domains hdomains entry hentry
      · cases hdefault : file.default with
        | none =>
            rw [RateLimitFile.config, hdefault]
            exact defaultRatePolicy_finite
        | some entry =>
            rw [RateLimitFile.config, hdefault]
            exact parser.finite_default contents file hparse entry hdefault

/-! ## The watcher keeps the last good configuration -/

variable (parser)

/-- The cache and the gauge are those of the last good configuration. -/
def UpToDate (files : List FileRead) (s : LiveConfig) : Prop :=
  ∃ config, LastGood parser files config ∧ s.cache = .new config ∧
    s.metrics.activeDomains = config.domains.length

variable {parser}

/-- A reload brings the cache up to date with the file it read. -/
theorem reloadConfig_upToDate {files : List FileRead} {s : LiveConfig}
    (h : UpToDate parser files s) (file : FileRead) :
    UpToDate parser (files ++ [file]) (reloadConfig parser file s) := by
  obtain ⟨config, hlast, hcache, hgauge⟩ := h
  rcases load_cases parser file s.metrics with ⟨new, hgood, hload⟩ | ⟨e, hbad, hload⟩
  · refine ⟨new, .of_good hgood files, ?_, ?_⟩
    · rw [reloadConfig, hload]
    · rw [reloadConfig, hload]
      rfl
  · refine ⟨config, hlast.append hbad, ?_⟩
    rw [reloadConfig, hload]
    -- Whichever way a failed load is reported, it is the old cache that stays.
    cases e <;> exact ⟨hcache, hgauge⟩

theorem handleMessage_upToDate {files : List FileRead} {s : LiveConfig}
    (h : UpToDate parser files s) (message : Message) :
    UpToDate parser (files ++ message.attempt.toList) (handleMessage parser s message) := by
  unfold handleMessage Message.attempt
  cases message.event with
  | error e =>
      rw [Option.toList_none, List.append_nil]
      exact h
  | ok kind =>
      cases hkind : shouldReload kind with
      | false => simpa [hkind] using h
      | true => simpa [hkind] using reloadConfig_upToDate h message.file

/-- **Every run of the watcher is up to date.** -/
theorem watchConfigFile_upToDate {files : List FileRead} {s : LiveConfig}
    (h : UpToDate parser files s) (messages : List Message) :
    UpToDate parser (files ++ messages.filterMap Message.attempt)
      (watchConfigFile parser s messages) := by
  induction messages generalizing files s with
  | nil =>
      rw [List.filterMap_nil, List.append_nil]
      exact h
  | cons message messages ih =>
      have hnext := ih (handleMessage_upToDate h message)
      have hfiles : files ++ (message :: messages).filterMap Message.attempt =
          files ++ message.attempt.toList ++ messages.filterMap Message.attempt := by
        cases hattempt : message.attempt <;> simp [hattempt]
      rw [hfiles]
      exact hnext

theorem startup_upToDate {redis : RedisConfig} {file : FileRead} {live : LiveConfig}
    (h : startup parser redis file = .ok live) : UpToDate parser [file] live := by
  unfold startup loadConfig at h
  rcases load_cases parser file .start with ⟨config, hgood, hload⟩ | ⟨e, _, hload⟩
  · rw [hload] at h
    dsimp only at h
    cases hvalid : validateConfig ⟨redis, config⟩ with
    | error e =>
        rw [hvalid] at h
        exact nomatch h
    | ok u =>
        rw [hvalid] at h
        obtain rfl := Except.ok.inj h
        exact ⟨config, .of_good hgood [], rfl, rfl⟩
  · rw [hload] at h
    exact nomatch h

/-! ## What the handlers find -/

/-- There is a policy, and each has a name and positive rates. -/
def Enforceable (policies : List RatePolicy) : Prop :=
  policies ≠ [] ∧ ∀ policy ∈ policies,
    policy.name ≠ "" ∧ 0 < policy.flowRatePerSecond ∧ 0 < policy.burstCapacity

theorem ValidPolicies.raw_enforceable (P : ValidPolicies) : Enforceable P.raw := by
  refine ⟨by simpa [ValidPolicies.raw] using P.nonempty, ?_⟩
  intro policy hpolicy
  obtain ⟨valid, _, rfl⟩ := List.mem_map.mp hpolicy
  refine ⟨valid.named, ?_, Int64.lt_iff_toInt_lt.mpr valid.burst_pos⟩
  rw [valid.flow_eq]
  exact (F64.fin_lt_fin 0 valid.flow).mpr valid.flow_pos

/-- The cache of a good configuration finds valid policies for every key. -/
theorem Good.cache_valid {file : FileRead} {config : RateLimitConfig}
    (h : Good parser file config) : (ConfigCache.new config).Valid := by
  obtain ⟨contents, _, hparse, hdomains, hdefault⟩ := good_iff.mp h
  exact ConfigCache.new_valid hdomains hdefault (fromStr_finite hparse)

/-- A cache that is up to date is valid, so that whatever holds of runs of the
service over valid caches holds of the service behind the watcher. -/
theorem UpToDate.cache_valid {files : List FileRead} {s : LiveConfig}
    (h : UpToDate parser files s) : s.cache.Valid := by
  obtain ⟨config, hlast, hcache, _⟩ := h
  obtain ⟨_, _, hgood⟩ := hlast
  rw [hcache]
  exact hgood.cache_valid

/-- **The live configuration is the last good one.**  After any messages there
has been a last good configuration; the cache is the one built from it, the
gauge counts its entries, and every lookup whatsoever finds policies that can
be enforced. -/
theorem live_config_is_last_good {redis : RedisConfig} {file : FileRead} {live : LiveConfig}
    (hstartup : startup parser redis file = .ok live) (messages : List Message) :
    (∃ config, LastGood parser (file :: messages.filterMap Message.attempt) config) ∧
    ∀ config, LastGood parser (file :: messages.filterMap Message.attempt) config →
      (watchConfigFile parser live messages).cache = .new config ∧
      (watchConfigFile parser live messages).metrics.activeDomains = config.domains.length ∧
      ∀ domain prefixKey, Enforceable
        ((watchConfigFile parser live messages).cache.getPolicies domain prefixKey) := by
  have hlive := watchConfigFile_upToDate (startup_upToDate hstartup) messages
  have hvalid := hlive.cache_valid
  obtain ⟨config, hlast, hcache, hgauge⟩ := hlive
  refine ⟨⟨config, hlast⟩, ?_⟩
  intro other hother
  obtain rfl := hlast.unique hother
  refine ⟨hcache, hgauge, fun domain prefixKey => ?_⟩
  obtain ⟨P, hP⟩ := hvalid domain prefixKey
  rw [← hP]
  exact P.raw_enforceable

/-- A parser that knows one text: an object without fields. -/
def emptyObjectParser : ConfigParser where
  parse contents :=
    if contents = "\x7b\x7d" then .ok ⟨none, none⟩
    else .error "EOF while parsing a value at line 1 column 0"
  finite_domains := by
    intro text file hparse domains hdomains
    split at hparse
    · obtain rfl := Except.ok.inj hparse
      exact nomatch hdomains
    · exact nomatch hparse
  finite_default := by
    intro text file hparse entry hdefault
    split at hparse
    · obtain rfl := Except.ok.inj hparse
      exact nomatch hdefault
    · exact nomatch hparse

/-- The service starts on a file without fields. -/
theorem exists_startup_emptyObject :
    ∃ live, startup emptyObjectParser .default (.ok "\x7b\x7d") = .ok live := by
  have hok : (startup emptyObjectParser .default (.ok "\x7b\x7d")).isOk = true := by
    decide +kernel
  cases hstartup : startup emptyObjectParser .default (.ok "\x7b\x7d") with
  | error e =>
      rw [hstartup] at hok
      cases hok
  | ok live => exact ⟨live, rfl⟩

/-- A service started on a file without fields, which is then truncated, and
whose watcher fails at last. -/
theorem live_config_is_last_good_after_truncation :
    ∃ live : LiveConfig, ∃ messages : List Message,
      startup emptyObjectParser .default (.ok "\x7b\x7d") = .ok live ∧
      messages = [⟨.ok .modify, .ok ""⟩, ⟨.error "overflow", .ok ""⟩] ∧
      (∃ config, LastGood emptyObjectParser [.ok "\x7b\x7d", .ok ""] config) ∧
      ∀ config, LastGood emptyObjectParser [.ok "\x7b\x7d", .ok ""] config →
        (watchConfigFile emptyObjectParser live messages).cache = .new config ∧
        (watchConfigFile emptyObjectParser live messages).metrics.activeDomains =
          config.domains.length ∧
        ∀ domain prefixKey, Enforceable
          ((watchConfigFile emptyObjectParser live messages).cache.getPolicies domain
            prefixKey) := by
  obtain ⟨live, hstartup⟩ := exists_startup_emptyObject
  exact ⟨live, _, hstartup, rfl, live_config_is_last_good hstartup
    [⟨.ok .modify, .ok ""⟩, ⟨.error "overflow", .ok ""⟩]⟩

end Limitr
