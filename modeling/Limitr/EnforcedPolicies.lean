import Limitr.LastMatch
import Limitr.RateLimiterService

/-!
# Configured and enforced policies

`GetCurrentConfig` reports every entry of the configuration.  A request for a
key of an entry is looked up under the entry's domain and what stands before
the first colon of its prefix; among the entries listed under that name the last
one wins, and the default policies stand in when there is none.  Nothing in the
validator keeps a prefix free of colons or a name from being listed twice.

`enforced_iff` says for which entries the policies reported are the ones their
requests are checked against (`Upholds`).  An accepted configuration with two
entries of the other kind ends the file.
-/

namespace Limitr

open LastMatch SeparatedNames

/-- The entry is listed under the domain and the prefix. -/
def ListedUnder (name : String × String) (entry : DomainConfig) : Prop :=
  name = (entry.domain, entry.prefixKey)

instance (name : String × String) : DecidablePred (ListedUnder name) :=
  fun entry => inferInstanceAs (Decidable (name = (entry.domain, entry.prefixKey)))

/-- The domain and prefix that requests for keys of the entry come to. -/
def DomainConfig.requestName (entry : DomainConfig) : String × String :=
  (entry.domain, String.ofList (head ':' entry.prefixKey.toList))

/-- A request for a key of the entry. -/
def DomainConfig.requestFor (entry : DomainConfig) (key : String) (cost : Option Int32) :
    CheckRequest :=
  ⟨some entry.domain, entry.prefixKey ++ ":" ++ key, cost⟩

/-- The last entry listed under the name that requests for the entry come to
has the entry's policies, or the default entry has when none is listed. -/
def RateLimitConfig.Upholds (config : RateLimitConfig) (entry : DomainConfig) : Prop :=
  (∀ other, IsLast (ListedUnder entry.requestName) config.domains other →
    other.policies = entry.policies) ∧
  ((∀ other ∈ config.domains, ¬ListedUnder entry.requestName other) →
    config.default.policies = entry.policies)

/-- **What a lookup finds**: the policies of the last entry listed under the
name, or the default ones. -/
theorem getPolicies_eq_iff (config : RateLimitConfig) (name : String × String)
    (policies : List RatePolicy) :
    (ConfigCache.new config).getPolicies name.1 name.2 = policies ↔
      (∀ entry, IsLast (ListedUnder name) config.domains entry → entry.policies = policies) ∧
      ((∀ entry ∈ config.domains, ¬ListedUnder name entry) →
        config.default.policies = policies) := by
  have hmap : (ConfigCache.new config).policies name =
      (config.domains.reverse.find? (fun entry => decide (ListedUnder name entry))).map
        DomainConfig.policies := insertEntries_eq config.domains name
  have hlookup : (ConfigCache.new config).getPolicies name.1 name.2 =
      ((ConfigCache.new config).policies name).getD config.default.policies := rfl
  rw [hlookup, hmap]
  cases hfind : config.domains.reverse.find? (fun entry => decide (ListedUnder name entry)) with
  | none =>
      have hnone := find?_reverse_eq_none_iff.mp hfind
      constructor
      · intro h
        exact ⟨fun entry hlast => absurd hlast.prop (hnone entry hlast.mem), fun _ => h⟩
      · exact fun h => h.2 hnone
  | some found =>
      have hlast := find?_reverse_eq_some_iff.mp hfind
      constructor
      · intro h
        refine ⟨fun entry hentry => ?_, fun hnone => ?_⟩
        · rw [hentry.unique hlast]
          exact h
        · exact absurd hlast.prop (hnone found hlast.mem)
      · exact fun h => h.1 found hlast

/-- A request for a key of an entry comes to the entry's domain and what stands
before the first colon of its prefix. -/
theorem requestFor_name (entry : DomainConfig) (key : String) (cost : Option Int32) :
    ((entry.requestFor key cost).name.domain, (entry.requestFor key cost).name.prefixKey) =
      entry.requestName := by
  have htext : (entry.prefixKey ++ ":" ++ key).toList =
      entry.prefixKey.toList ++ ':' :: key.toList := by
    simp [String.toList_append]
  obtain ⟨after, hcut⟩ : ∃ after, cut ':' (entry.prefixKey.toList ++ ':' :: key.toList) =
      some (head ':' entry.prefixKey.toList, after) := cut_head_append_sep _ _
  rw [← htext] at hcut
  simp only [CheckRequest.name, bucketName, DomainConfig.requestFor, splitLimitKey, hcut,
    Option.getD_some, DomainConfig.requestName]

/-- A request for a key of an entry is checked against the entry's policies
exactly when the configuration upholds them. -/
theorem policiesFor_requestFor_iff (config : RateLimitConfig) (entry : DomainConfig)
    (key : String) (cost : Option Int32) :
    policiesFor (.new config) (entry.requestFor key cost) = entry.policies ↔
      config.Upholds entry := by
  have hname := requestFor_name entry key cost
  have hpolicies : policiesFor (.new config) (entry.requestFor key cost) =
      (ConfigCache.new config).getPolicies entry.requestName.1 entry.requestName.2 := by
    rw [← hname]
    rfl
  rw [hpolicies, getPolicies_eq_iff, RateLimitConfig.Upholds]

/-- Where prefixes are free of colons and no name is listed twice, every entry is
upheld. -/
theorem upholds_of_distinct {config : RateLimitConfig}
    (hcolon : ∀ entry ∈ config.domains, ':' ∉ entry.prefixKey.toList)
    (hdistinct : config.domains.Pairwise fun a b =>
      (a.domain, a.prefixKey) ≠ (b.domain, b.prefixKey))
    {entry : DomainConfig} (hentry : entry ∈ config.domains) : config.Upholds entry := by
  have hname : ListedUnder entry.requestName entry := by
    rw [ListedUnder, DomainConfig.requestName, head_of_not_mem (hcolon entry hentry),
      String.ofList_toList]
  refine ⟨fun other hlast => ?_, fun hnone => absurd hname (hnone entry hentry)⟩
  obtain ⟨earlier, later, hsplit⟩ := List.append_of_mem hentry
  -- Nothing listed after the entry has its name, so it is the last one itself.
  have hself : IsLast (ListedUnder entry.requestName) config.domains entry := by
    refine ⟨earlier, later, hsplit, hname, fun after hafter hlisted => ?_⟩
    rw [hsplit] at hdistinct
    have hrest := (List.pairwise_append.mp hdistinct).2.1
    exact (List.pairwise_cons.mp hrest).1 after hafter (hname.symm.trans hlisted)
  rw [hlast.unique hself]

/-- **When the configured policies are the enforced ones.**  `GetCurrentConfig`
reports every entry, and the requests for a key of an entry are checked against
the policies reported for it exactly when the configuration upholds them. -/
theorem enforced_iff (config : RateLimitConfig) :
    (RateLimiterService.getCurrentConfig (.new config)).configs = config.domains ∧
    ∀ entry ∈ config.domains, ∀ key cost,
      policiesFor (.new config) (entry.requestFor key cost) = entry.policies ↔
        config.Upholds entry :=
  ⟨rfl, fun entry _ key cost => policiesFor_requestFor_iff config entry key cost⟩

/-- An accepted configuration: a name listed twice, and a prefix with a colon. -/
def shadowedConfig : AppConfig where
  redis := .default
  rateLimits :=
    ⟨[⟨"api", "user", [⟨"tight", 1, 1⟩]⟩, ⟨"api", "user", [⟨"loose", 1000, 1000⟩]⟩,
      ⟨"api", "user:admin", [⟨"admin", 5, 5⟩]⟩], defaultRatePolicy⟩

/-- **Reported but not enforced.**  The configuration is accepted.  The first of
two entries of one name is overridden by the second, and the entry with a colon
in its prefix is never looked up. -/
theorem shadowed_entries_not_enforced :
    validateConfig shadowedConfig = .ok () ∧
    (RateLimiterService.getCurrentConfig (.new shadowedConfig.rateLimits)).configs =
      shadowedConfig.rateLimits.domains ∧
    policiesFor (.new shadowedConfig.rateLimits) ⟨some "api", "user" ++ ":" ++ "k", none⟩ ≠
      [⟨"tight", 1, 1⟩] ∧
    policiesFor (.new shadowedConfig.rateLimits)
      ⟨some "api", "user:admin" ++ ":" ++ "k", none⟩ ≠ [⟨"admin", 5, 5⟩] :=
  ⟨by decide +kernel, rfl, by decide +kernel, by decide +kernel⟩

end Limitr
