import ShareVault.Bytes
import ShareVault.Json.Codec

/-!
# Configuration

The numbers that every vault shares, the settings of a vault's governance, and the fixed setup of
a vault: its tokens in canonical order with the amount of each that counts as more than dust.

* `GovernanceSettings.validate` — the delay and the fee caps against their hard maxima;
* `VaultConfig.validate` — at least one token, ascending and distinct, each with a positive
  threshold, and valid settings;
* `GovernanceSettings.ofText` — settings from JSON, with the defaults for what is left out.
-/

namespace ShareVault

/-! ### Scales -/

/-- The denominator of every fee rate. -/
def feeDenominator : Amount := ⟨1000000000, by decide⟩

/-- The scale of prices and of the high-water mark, eighteen decimal places. -/
def priceScale : Amount := ⟨1000000000000000000, by decide⟩

/-- The seconds of a year of 365 days. -/
def secondsPerYear : Nat := 365 * 24 * 3600

/-- The highest cap on the management fee, a tenth. -/
def maxManagementFee : Amount := ⟨100000000, by decide⟩

/-- The highest cap on the performance fee, a half. -/
def maxPerformanceFee : Amount := ⟨500000000, by decide⟩

/-- The highest cap on the protocol fee, a twentieth. -/
def maxProtocolFee : Amount := ⟨50000000, by decide⟩

/-- The usual governance delay, one day. -/
def defaultGovernanceDelay : Timestamp := ⟨86400, by decide⟩

/-- The longest governance delay, two weeks. -/
def maxGovernanceDelay : Timestamp := ⟨14 * 86400, by decide⟩

/-- How many thresholds of every token a first deposit has to bring. -/
def firstDepositMultiplier : Nat := 10

/-! ### Errors -/

inductive CappedFee where
  | management | performance | protocol
deriving DecidableEq, Repr

def CappedFee.name : CappedFee → String
  | .management => "management fee"
  | .performance => "performance fee"
  | .protocol => "protocol fee"

inductive ConfigError where
  /-- A token stands after a larger one. -/
  | unsortedTokens (token after : String)
  /-- A token stands twice. -/
  | duplicateToken (token : String)
  | noTokens
  /-- Tokens and thresholds differ in number. -/
  | lengthMismatch (tokens existentials : Nat)
  /-- A token has the threshold zero. -/
  | zeroExistential (token : String)
  /-- The governance delay is too long. -/
  | delayTooLong (delay max : Timestamp)
  /-- A fee cap is above its hard maximum. -/
  | capTooHigh (fee : CappedFee) (value max : Amount)
  /-- The text is not the JSON of a configuration. -/
  | unreadable
deriving DecidableEq

def ConfigError.message : ConfigError → String
  | .unsortedTokens token after => s!"tokens are not sorted: {token} appears after {after}"
  | .duplicateToken token => s!"duplicate token: {token}"
  | .noTokens => "vault has no tokens"
  | .lengthMismatch tokens existentials =>
    s!"existentials length mismatch: {tokens} tokens, {existentials} existentials"
  | .zeroExistential token => s!"existential threshold for {token} is zero"
  | .delayTooLong delay max => s!"governance delay {delay}s exceeds maximum {max}s"
  | .capTooHigh fee value max =>
    fee.name ++ s!" cap {value} exceeds hard maximum {max}"
  | .unreadable => "config parse error: "

/-! ### Settings of the governance -/

/-- The delay of changes and the caps of fees. -/
structure GovernanceSettings where
  /-- Seconds between staging a value and its earliest commit. -/
  delay : Timestamp
  /-- The largest management fee. -/
  managementCap : Amount
  /-- The largest performance fee. -/
  performanceCap : Amount
  /-- The largest protocol fee. -/
  protocolCap : Amount
deriving DecidableEq

namespace GovernanceSettings

/-- A delay of one day and the highest caps. -/
def default : GovernanceSettings :=
  ⟨defaultGovernanceDelay, maxManagementFee, maxPerformanceFee, maxProtocolFee⟩

instance : Inhabited GovernanceSettings := ⟨default⟩

def cap (s : GovernanceSettings) : CappedFee → Amount
  | .management => s.managementCap
  | .performance => s.performanceCap
  | .protocol => s.protocolCap

/-- Refuses a cap above a maximum. -/
def checkCap (s : GovernanceSettings) (fee : CappedFee) (max : Amount) :
    Except ConfigError Unit :=
  if max < s.cap fee then .error (.capTooHigh fee (s.cap fee) max) else .ok ()

/-- Accepts settings within the hard maxima. -/
def validate (s : GovernanceSettings) : Except ConfigError Unit := do
  if maxGovernanceDelay < s.delay then
    throw (.delayTooLong s.delay maxGovernanceDelay)
  s.checkCap .management maxManagementFee
  s.checkCap .performance maxPerformanceFee
  s.checkCap .protocol maxProtocolFee

end GovernanceSettings

/-- The settings are read with the usual value for each field that is left out. -/
instance : JsonCodec GovernanceSettings where
  toJson s := .object
    [("governance_delay", toJson s.delay), ("max_management_fee", toJson s.managementCap),
      ("max_performance_fee", toJson s.performanceCap),
      ("max_protocol_fee", toJson s.protocolCap)]
  ofJson? v := do
    let [delay, management, performance, protocol] ← v.slots?
      ["governance_delay", "max_management_fee", "max_performance_fee", "max_protocol_fee"] | none
    let usual := GovernanceSettings.default
    return ⟨← delay.orDefault? usual.delay, ← management.orDefault? usual.managementCap,
      ← performance.orDefault? usual.performanceCap, ← protocol.orDefault? usual.protocolCap⟩

instance : ByteCodec GovernanceSettings where
  encode s := ByteCodec.encode s.delay ++ ByteCodec.encode s.managementCap ++
    ByteCodec.encode s.performanceCap ++ ByteCodec.encode s.protocolCap
  decode := do
    let delay ← ByteCodec.decode
    let management ← ByteCodec.decode
    let performance ← ByteCodec.decode
    let protocol ← ByteCodec.decode
    return ⟨delay, management, performance, protocol⟩
  fits _ := true

/-- The settings of a JSON text, if they are within the hard maxima. -/
def GovernanceSettings.ofText (text : String) : Except ConfigError GovernanceSettings :=
  match JsonCodec.read? GovernanceSettings text with
  | none => .error .unreadable
  | some settings => do
    settings.validate
    return settings

/-! ### Setup of a vault -/

/-- The fixed setup of a vault. -/
structure VaultConfig where
  /-- The tokens in canonical order. -/
  tokens : List String
  /-- The amount of each token from which on it is no dust. -/
  existentials : List Amount
  settings : GovernanceSettings
deriving DecidableEq

namespace VaultConfig

def tokenCount (c : VaultConfig) : Nat := c.tokens.length

/-- Accepts tokens that ascend; else names the first neighbours that do not. -/
def checkOrder : List String → Except ConfigError Unit
  | a :: b :: rest =>
    match compare a b with
    | .lt => checkOrder (b :: rest)
    | .eq => .error (.duplicateToken b)
    | .gt => .error (.unsortedTokens b a)
  | _ => .ok ()

/-- Accepts positive thresholds; else names the first token that has none. -/
def checkExistentials : List (String × Amount) → Except ConfigError Unit
  | [] => .ok ()
  | (token, existential) :: rest =>
    if existential = 0 then .error (.zeroExistential token) else checkExistentials rest

/-- Accepts a setup that a vault can run with. -/
def validate (c : VaultConfig) : Except ConfigError Unit := do
  if c.tokens = [] then
    throw .noTokens
  if c.tokens.length ≠ c.existentials.length then
    throw (.lengthMismatch c.tokens.length c.existentials.length)
  checkOrder c.tokens
  checkExistentials (c.tokens.zip c.existentials)
  c.settings.validate

end VaultConfig

instance : JsonCodec VaultConfig where
  toJson c := .object
    [("tokens", toJson c.tokens), ("existentials", toJson c.existentials),
      ("governance", toJson c.settings)]
  ofJson? v := do
    let [tokens, existentials, settings] ← v.slots? ["tokens", "existentials", "governance"] | none
    return ⟨← tokens.required?, ← existentials.required?,
      ← settings.orDefault? GovernanceSettings.default⟩

instance : ByteCodec VaultConfig where
  encode c := ByteCodec.encode c.tokens ++ ByteCodec.encode c.existentials ++
    ByteCodec.encode c.settings
  decode := do
    let tokens ← ByteCodec.decode
    let existentials ← ByteCodec.decode
    let settings ← ByteCodec.decode
    return ⟨tokens, existentials, settings⟩
  fits c := ByteCodec.fits c.tokens && ByteCodec.fits c.existentials

end ShareVault
