import Limitr.ConfigWatcher
import Mathlib.Data.List.AList
import Mathlib.Data.List.Dedup

/-!
# How many domains there are

The cache keeps its policies in a map from domain and prefix, and the gauge of active
domains is set to the number of entries of the file.  An entry that is listed twice
under one name is one key of the map (`entries_lookup`, `mem_entries_iff`).

Whatever the watcher does, the gauge is therefore never below the number of keys the
cache has, and is that number exactly when no name is listed twice
(`gauge_counts_keys_iff`).
-/

namespace Limitr

/-- The name an entry is cached under. -/
def DomainConfig.cacheKey (entry : DomainConfig) : String × String :=
  (entry.domain, entry.prefixKey)

/-- The map of the cache with its entries, one for each key. -/
abbrev PolicyMap := AList fun _ : String × String => List RatePolicy

/-- The map the cache is built with. -/
def RateLimitConfig.entries (config : RateLimitConfig) : PolicyMap :=
  config.domains.foldl (fun map entry => map.insert entry.cacheKey entry.policies) ∅

structure ConfigStats where
  domainCount : ℕ
  defaultPolicyCount : ℕ

/-- The statistics of a cache; every cache is built from its full configuration. -/
def ConfigCache.stats (cache : ConfigCache) : ConfigStats :=
  ⟨cache.getFullConfig.entries.keys.length, cache.defaultPolicy.length⟩

variable {config : RateLimitConfig} {key : String × String}

/-! ## The map and the cache -/

/-- **The map finds what the cache finds.** -/
theorem entries_lookup (config : RateLimitConfig) (key : String × String) :
    config.entries.lookup key = (ConfigCache.new config).policies key := by
  have hfold : ∀ (domains : List DomainConfig) (map : PolicyMap)
      (lookup : String × String → Option (List RatePolicy)), (∀ k, map.lookup k = lookup k) →
        ∀ k, (domains.foldl (fun map entry => map.insert entry.cacheKey entry.policies)
          map).lookup k = domains.foldl insertEntry lookup k := by
    intro domains
    induction domains with
    | nil => exact fun _ _ h => h
    | cons entry domains ih =>
        intro map lookup h
        apply ih
        intro k
        by_cases hk : k = entry.cacheKey
        · rw [hk, AList.lookup_insert, insertEntry]
          exact (if_pos rfl).symm
        · rw [AList.lookup_insert_ne hk, h k, insertEntry]
          exact (if_neg hk).symm
  exact hfold config.domains ∅ (fun _ => none) (fun k => AList.lookup_empty k) key

/-- Its keys are the names of the entries. -/
theorem mem_entries_iff :
    key ∈ config.entries.keys ↔ key ∈ config.domains.map DomainConfig.cacheKey := by
  have hfold : ∀ (domains : List DomainConfig) (map : PolicyMap),
      key ∈ (domains.foldl (fun map entry => map.insert entry.cacheKey entry.policies)
        map).keys ↔ key ∈ map.keys ∨ key ∈ domains.map DomainConfig.cacheKey := by
    intro domains
    induction domains with
    | nil => simp
    | cons entry domains ih =>
        intro map
        rw [List.foldl_cons, ih, ← AList.mem_keys, AList.mem_insert, AList.mem_keys,
          List.map_cons, List.mem_cons]
        tauto
  rw [RateLimitConfig.entries, hfold]
  simp

/-- The cache finds policies of its own for the names of its entries. -/
theorem policies_isSome_iff : ((ConfigCache.new config).policies key).isSome = true ↔
    key ∈ config.domains.map DomainConfig.cacheKey := by
  rw [← entries_lookup, AList.lookup_isSome, AList.mem_keys]
  exact mem_entries_iff

/-- There are as many keys as different names. -/
theorem length_entries (config : RateLimitConfig) : config.entries.keys.length =
    (config.domains.map DomainConfig.cacheKey).dedup.length := by
  apply List.Perm.length_eq
  rw [List.perm_ext_iff_of_nodup (AList.keys_nodup _) (List.nodup_dedup _)]
  intro key
  exact mem_entries_iff.trans List.mem_dedup.symm

/-! ## The gauge -/

/-- **The gauge and the cache.**  After any messages the cache has policies of its own
for the names the configuration in force lists; the gauge of active domains is at
least their number, and it is their number exactly when no name is listed twice. -/
theorem gauge_counts_keys_iff {parser : ConfigParser} {redis : RedisConfig} {file : FileRead}
    {live : LiveConfig} (hstartup : startup parser redis file = .ok live)
    (messages : List Message) :
    let s := watchConfigFile parser live messages
    (∀ key, (s.cache.policies key).isSome = true ↔
        key ∈ s.cache.getFullConfig.domains.map DomainConfig.cacheKey) ∧
      (s.cache.stats.domainCount : ℚ) ≤ s.metrics.activeDomains ∧
      ((s.cache.stats.domainCount : ℚ) = s.metrics.activeDomains ↔
        (s.cache.getFullConfig.domains.map DomainConfig.cacheKey).Nodup) := by
  intro s
  obtain ⟨config, _, hcache, hgauge⟩ : UpToDate parser ([file] ++ _) s :=
    watchConfigFile_upToDate (startup_upToDate hstartup) messages
  have hcount : s.cache.stats.domainCount =
      (config.domains.map DomainConfig.cacheKey).dedup.length := by
    rw [hcache]
    exact length_entries config
  have hfull : s.cache.getFullConfig = config := by
    rw [hcache]
    rfl
  have hkeys : ∀ key, (s.cache.policies key).isSome = true ↔
      key ∈ config.domains.map DomainConfig.cacheKey := by
    rw [hcache]
    exact fun key => policies_isSome_iff
  have hdedup := List.dedup_sublist (config.domains.map DomainConfig.cacheKey)
  have hle := hdedup.length_le
  rw [List.length_map] at hle
  rw [hcount, hgauge, hfull, Nat.cast_le, Nat.cast_inj]
  refine ⟨hkeys, hle, ?_⟩
  constructor
  · intro h
    rw [← List.length_map DomainConfig.cacheKey] at h
    rw [← List.dedup_eq_self]
    exact hdedup.eq_of_length h
  · intro hdistinct
    rw [List.dedup_eq_self.mpr hdistinct, List.length_map]

/-- A service started on a file without fields, which is then truncated. -/
theorem gauge_counts_keys_iff_after_truncation : ∃ live : LiveConfig,
    startup emptyObjectParser .default (.ok "\x7b\x7d") = .ok live ∧
      let s := watchConfigFile emptyObjectParser live [⟨.ok .modify, .ok ""⟩]
      (∀ key, (s.cache.policies key).isSome = true ↔
          key ∈ s.cache.getFullConfig.domains.map DomainConfig.cacheKey) ∧
        (s.cache.stats.domainCount : ℚ) ≤ s.metrics.activeDomains ∧
        ((s.cache.stats.domainCount : ℚ) = s.metrics.activeDomains ↔
          (s.cache.getFullConfig.domains.map DomainConfig.cacheKey).Nodup) := by
  obtain ⟨live, hstartup⟩ := exists_startup_emptyObject
  exact ⟨live, hstartup, gauge_counts_keys_iff hstartup _⟩

end Limitr
