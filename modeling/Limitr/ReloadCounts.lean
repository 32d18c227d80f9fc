import Limitr.ConfigWatcher

/-!
# What the reload counters count

The watcher has two counters, one for reloads that replaced the cache and one
for everything that went wrong.  A reload can fail in four ways.  Three of them,
an unreadable file, a text that does not parse and a configuration error, are
logged and returned from without a count; only the last, which the validator's
rate errors reach, counts.

The counters therefore tell how often the cache was replaced, and how often a
failure was *seen*: the errors fall short of the failures by the number of
uncounted ones (`watchConfigFile_counts`), and tell the truth about a run
exactly when it has none of them (`reload_counts_iff`).
-/

namespace Limitr

variable (parser : ConfigParser)

/-- The loader gets a configuration out of a read. -/
def loads (file : FileRead) : Bool :=
  (loadRateLimitConfigFromFile parser file .start).1.isOk

/-- The read fails, or its text does not parse, or the validator reports a
configuration error. -/
def failsUncounted (file : FileRead) : Bool :=
  match file with
  | .error _ => true
  | .ok contents =>
      match parser.fromStr contents with
      | .error _ => true
      | .ok config =>
          match validateConfig ⟨.default, config⟩ with
          | .error (.configurationError _) => true
          | _ => false

namespace Message

/-- The message leads to a reload that replaces the cache. -/
def replaces (message : Message) : Bool := message.attempt.any (loads parser)

/-- The message leads to a reload that keeps the old cache. -/
def keepsOld (message : Message) : Bool := message.attempt.any fun file => !loads parser file

/-- The message is an error of the watcher itself. -/
def isWatcherError (message : Message) : Bool := !message.event.isOk

/-- The message leads to a reload whose failure is not counted. -/
def uncounted (message : Message) : Bool := message.attempt.any (failsUncounted parser)

end Message

/-- The success counter is the number of times the cache was replaced, and the
error counter the number of reloads that kept the old one and of errors of the
watcher. -/
def CountsTruly (messages : List Message) (s : LiveConfig) : Prop :=
  s.metrics.configReloadsTotal "success" = messages.countP (Message.replaces parser) ∧
    s.metrics.configReloadsTotal "error" =
      messages.countP (Message.keepsOld parser) + messages.countP Message.isWatcherError

variable {parser}

/-! ## One reload -/

theorem loads_iff_good (file : FileRead) :
    loads parser file = true ↔ ∃ config, Good parser file config := by
  unfold loads
  rcases load_cases parser file .start with ⟨config, hgood, hload⟩ | ⟨e, hbad, hload⟩
  · rw [hload]
    exact ⟨fun _ => ⟨config, hgood⟩, fun _ => rfl⟩
  · rw [hload]
    exact ⟨fun h => (nomatch h), fun h => absurd h (not_exists.mpr hbad)⟩

/-- The three ways a reload ends. -/
inductive ReloadCase (parser : ConfigParser) (file : FileRead) (s : LiveConfig) :
    LiveConfig → Prop
  | replaced (config : RateLimitConfig) (hgood : Good parser file config)
      (huncounted : failsUncounted parser file = false) :
      ReloadCase parser file s ⟨.new config,
        (s.metrics.updateConfigMetrics config.domains.length).recordConfigReload true⟩
  | counted (hloads : loads parser file = false) (huncounted : failsUncounted parser file = false) :
      ReloadCase parser file s ⟨s.cache, s.metrics.recordConfigReload false⟩
  | unseen (hloads : loads parser file = false) (huncounted : failsUncounted parser file = true) :
      ReloadCase parser file s s

variable (parser) in
/-- **One reload.**  It replaces the cache and counts a success, or it keeps the
old cache and counts an error, or it leaves no trace. -/
theorem reload_cases (file : FileRead) (s : LiveConfig) :
    ReloadCase parser file s (reloadConfig parser file s) := by
  cases file with
  | error e => exact .unseen rfl rfl
  | ok contents =>
      cases hparse : parser.fromStr contents with
      | error e =>
          have hreload : reloadConfig parser (.ok contents) s = s := by
            simp only [reloadConfig, loadRateLimitConfigFromFile, hparse]
          rw [hreload]
          apply ReloadCase.unseen
          · simp only [loads, loadRateLimitConfigFromFile, hparse]
            rfl
          · simp only [failsUncounted, hparse]
      | ok config =>
          cases hvalid : validateConfig ⟨.default, config⟩ with
          | error e =>
              have hloads : loads parser (.ok contents) = false := by
                simp only [loads, loadRateLimitConfigFromFile, hparse, hvalid]
                rfl
              have hreport := validateConfig_error hvalid
              simp only [reloadConfig, loadRateLimitConfigFromFile, hparse, hvalid]
              cases e with
              | configurationError message =>
                  exact .unseen hloads (by simp only [failsUncounted, hparse, hvalid])
              | invalidRate message =>
                  exact .counted hloads (by simp only [failsUncounted, hparse, hvalid])
              | _ => exact hreport.elim
          | ok u =>
              have hreload : reloadConfig parser (.ok contents) s = ⟨.new config,
                  (s.metrics.updateConfigMetrics config.domains.length).recordConfigReload
                    true⟩ := by
                simp only [reloadConfig, loadRateLimitConfigFromFile, hparse, hvalid]
              rw [hreload]
              apply ReloadCase.replaced config ⟨contents, rfl, hparse, hvalid⟩
              simp only [failsUncounted, hparse, hvalid]

/-! ## One message, and a run -/

/-- **When the cache is replaced.**  By the configuration of a good read, when
the message leads to one, and not otherwise. -/
theorem handleMessage_cache (s : LiveConfig) (message : Message) :
    (message.replaces parser = true → ∃ config, Good parser message.file config ∧
        (handleMessage parser s message).cache = .new config) ∧
      (message.replaces parser = false → (handleMessage parser s message).cache = s.cache) := by
  unfold Message.replaces Message.attempt handleMessage
  cases message.event with
  | error e => simp
  | ok kind =>
      cases hkind : shouldReload kind with
      | false => simp [hkind]
      | true =>
          simp only [hkind, if_true, Option.any_some]
          have hcases := reload_cases parser message.file s
          generalize reloadConfig parser message.file s = result at hcases ⊢
          cases hcases with
          | replaced config hgood huncounted =>
              rw [(loads_iff_good message.file).mpr ⟨config, hgood⟩]
              exact ⟨fun _ => ⟨config, hgood, rfl⟩, fun h => (nomatch h)⟩
          | counted hloads huncounted =>
              rw [hloads]
              exact ⟨fun h => (nomatch h), fun _ => rfl⟩
          | unseen hloads huncounted =>
              rw [hloads]
              exact ⟨fun h => (nomatch h), fun _ => rfl⟩

variable (parser)

/-- One message adds to the counters what it should, but for an uncounted
failure. -/
theorem handleMessage_counts (s : LiveConfig) (message : Message) :
    (handleMessage parser s message).metrics.configReloadsTotal "success" =
        s.metrics.configReloadsTotal "success" + (message.replaces parser).toNat ∧
      (handleMessage parser s message).metrics.configReloadsTotal "error" +
          (message.uncounted parser).toNat =
        s.metrics.configReloadsTotal "error" +
          ((message.keepsOld parser).toNat + message.isWatcherError.toNat) := by
  have hlabels : ("success" = "error") = False := by decide
  have hlabels' : ("error" = "success") = False := by decide
  unfold Message.replaces Message.keepsOld Message.uncounted Message.isWatcherError
    Message.attempt handleMessage
  cases message.event with
  | error e =>
      simp [Metrics.recordConfigReload, atLabel, Except.isOk, Except.toBool]
  | ok kind =>
      cases hkind : shouldReload kind with
      | false => simp [hkind, Except.isOk, Except.toBool]
      | true =>
          simp only [hkind, if_true, Option.any_some]
          have hcases := reload_cases parser message.file s
          generalize reloadConfig parser message.file s = result at hcases ⊢
          cases hcases with
          | replaced config hgood huncounted =>
              have hloads := (loads_iff_good message.file).mpr ⟨config, hgood⟩
              simp [hloads, huncounted, Metrics.recordConfigReload, atLabel,
                Metrics.updateConfigMetrics, Except.isOk, Except.toBool]
          | counted hloads huncounted =>
              simp [hloads, huncounted, Metrics.recordConfigReload, atLabel, Except.isOk,
                Except.toBool]
          | unseen hloads huncounted =>
              simp [hloads, huncounted, Except.isOk, Except.toBool]

/-- **The counters after a run.**  The errors fall short of the failures by the
uncounted ones. -/
theorem watchConfigFile_counts (s : LiveConfig) (messages : List Message) :
    (watchConfigFile parser s messages).metrics.configReloadsTotal "success" =
        s.metrics.configReloadsTotal "success" +
          messages.countP (Message.replaces parser) ∧
      (watchConfigFile parser s messages).metrics.configReloadsTotal "error" +
          messages.countP (Message.uncounted parser) =
        s.metrics.configReloadsTotal "error" +
          (messages.countP (Message.keepsOld parser) +
            messages.countP Message.isWatcherError) := by
  induction messages generalizing s with
  | nil => simp [watchConfigFile]
  | cons message messages ih =>
      have hcount : ∀ f : Message → Bool, ((message :: messages).countP f : ℚ) =
          (f message).toNat + messages.countP f := by
        intro f
        cases hf : f message with
        | false => simp [hf]
        | true =>
            simp only [List.countP_cons, hf, Bool.toNat_true, if_true]
            push_cast
            ring
      obtain ⟨hsuccess, herror⟩ := handleMessage_counts parser s message
      obtain ⟨ihsuccess, iherror⟩ := ih (handleMessage parser s message)
      have hfold : watchConfigFile parser s (message :: messages) =
          watchConfigFile parser (handleMessage parser s message) messages := rfl
      rw [hfold, hcount, hcount, hcount, hcount]
      constructor
      · rw [ihsuccess, hsuccess]
        ring
      · linarith

variable {parser}

/-- The counters are at zero when the watcher starts. -/
theorem startup_counts {redis : RedisConfig} {file : FileRead} {live : LiveConfig}
    (h : startup parser redis file = .ok live) (label : String) :
    live.metrics.configReloadsTotal label = 0 := by
  unfold startup loadConfig at h
  rcases load_cases parser file .start with ⟨config, hgood, hload⟩ | ⟨e, _, hload⟩
  · rw [hload] at h
    dsimp only at h
    cases hvalid : validateConfig ⟨redis, config⟩ with
    | error e =>
        rw [hvalid] at h
        exact nomatch h
    | ok u =>
        rw [hvalid] at h
        obtain rfl := Except.ok.inj h
        rfl
  · rw [hload] at h
    exact nomatch h

/-- **When the counters tell the truth.**  In every run from the start of the
process the cache is replaced at the messages that lead to a good configuration
and at no other; and the counters count the replacements, and the failures
together with the errors of the watcher, exactly when no reload of the run
fails by reading, by parsing or by a configuration error. -/
theorem reload_counts_iff {redis : RedisConfig} {file : FileRead} {live : LiveConfig}
    (hstartup : startup parser redis file = .ok live) (messages : List Message) :
    (∀ s, ∀ message ∈ messages,
      (message.replaces parser = true → ∃ config, Good parser message.file config ∧
        (handleMessage parser s message).cache = .new config) ∧
      (message.replaces parser = false → (handleMessage parser s message).cache = s.cache)) ∧
    (CountsTruly parser messages (watchConfigFile parser live messages) ↔
      ∀ message ∈ messages, message.uncounted parser = false) := by
  refine ⟨fun s message _ => handleMessage_cache s message, ?_⟩
  obtain ⟨hsuccess, herror⟩ := watchConfigFile_counts parser live messages
  rw [startup_counts hstartup, zero_add] at hsuccess herror
  have hnone : (messages.countP (Message.uncounted parser) : ℚ) = 0 ↔
      ∀ message ∈ messages, message.uncounted parser = false := by
    rw [Nat.cast_eq_zero, List.countP_eq_zero]
    simp only [Bool.not_eq_true]
  rw [← hnone, CountsTruly]
  constructor
  · intro h
    obtain ⟨_, htrue⟩ := h
    linarith
  · intro h
    refine ⟨hsuccess, ?_⟩
    linarith

/-- A service started on a file without fields, whose watcher reports an event
that concerns nothing and then fails. -/
theorem reload_counts_after_watcher_error :
    ∃ live : LiveConfig, startup emptyObjectParser .default (.ok "\x7b\x7d") = .ok live ∧
      (CountsTruly emptyObjectParser [⟨.ok .access, .ok ""⟩, ⟨.error "overflow", .ok ""⟩]
          (watchConfigFile emptyObjectParser live
            [⟨.ok .access, .ok ""⟩, ⟨.error "overflow", .ok ""⟩]) ↔
        ∀ message ∈ [(⟨.ok .access, .ok ""⟩ : Message), ⟨.error "overflow", .ok ""⟩],
          message.uncounted emptyObjectParser = false) := by
  obtain ⟨live, hlive⟩ := exists_startup_emptyObject
  exact ⟨live, hlive, (reload_counts_iff hlive _).2⟩

/-- **A truncated file is not counted.**  The reload it causes keeps the old
cache, and no counter has moved. -/
theorem truncation_not_counted :
    ∃ live : LiveConfig, startup emptyObjectParser .default (.ok "\x7b\x7d") = .ok live ∧
      ¬CountsTruly emptyObjectParser [⟨.ok .modify, .ok ""⟩]
        (watchConfigFile emptyObjectParser live [⟨.ok .modify, .ok ""⟩]) := by
  obtain ⟨live, hlive⟩ := exists_startup_emptyObject
  refine ⟨live, hlive, ?_⟩
  obtain ⟨_, herror⟩ := watchConfigFile_counts emptyObjectParser live
    [⟨.ok .modify, .ok ""⟩]
  rw [startup_counts hlive] at herror
  have huncounted : [(⟨.ok .modify, .ok ""⟩ : Message)].countP
      (Message.uncounted emptyObjectParser) = 1 := by
    decide +kernel
  rw [huncounted] at herror
  intro h
  obtain ⟨_, htrue⟩ := h
  rw [htrue] at herror
  push_cast at herror
  linarith

end Limitr
