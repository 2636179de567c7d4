import ShareVault.Word
import ShareVault.Arithmetic
import ShareVault.SortedMap
import ShareVault.Radix
import ShareVault.Json.Basic
import ShareVault.Json.Token
import ShareVault.Json.Text
import ShareVault.Json.Codec
import ShareVault.Bytes
import ShareVault.Uuid
import ShareVault.Clock
import ShareVault.Timelock
import ShareVault.Access
import ShareVault.Ledger
import ShareVault.Config
import ShareVault.Valuation
import ShareVault.Custody
import ShareVault.Event
import ShareVault.Binary64
import ShareVault.Metrics
import ShareVault.LogFormat
import ShareVault.Param
import ShareVault.Schedule
import ShareVault.Governance
import ShareVault.Store
import ShareVault.Error
import ShareVault.Fees
import ShareVault.Deposit
import ShareVault.Withdraw
import ShareVault.Vault.State
import ShareVault.Vault.Call
import ShareVault.Vault.Host
import ShareVault.Vault.Perform
import ShareVault.InMemory
import ShareVault.Simulation
import ShareVault.Proofs.Outcome
import ShareVault.Proofs.Frame
import ShareVault.Proofs.Operation
import ShareVault.Proofs.Failure
import ShareVault.Proofs.Conservation
import ShareVault.Proofs.Charge
import ShareVault.Proofs.Run
import ShareVault.Proofs.Custody
import ShareVault.Proofs.Encoding
import ShareVault.Proofs.Supply
import ShareVault.Proofs.FeeTime
import ShareVault.Proofs.Rounding
import ShareVault.Proofs.NoExtraction
import ShareVault.Proofs.Governance
import ShareVault.Proofs.Accounting
import ShareVault.Proofs.Timelock
import ShareVault.Proofs.Lockstep
import ShareVault.Proofs.Journal
import ShareVault.Proofs.Errors
import ShareVault.Proofs.Reentrancy
import ShareVault.Proofs.Pricing
import ShareVault.Proofs.Sources
import ShareVault.Proofs.Availability
import ShareVault.Proofs.Booking
import ShareVault.Proofs.Dilution
import ShareVault.Proofs.OwedForTime
import ShareVault.Proofs.FeeClock
import ShareVault.Proofs.Accrual
import ShareVault.Proofs.Preview
import ShareVault.Proofs.Replay
import ShareVault.Proofs.Independence
import ShareVault.Proofs.FeeCaps
import ShareVault.Proofs.Past
import ShareVault.Proofs.Restore
import ShareVault.Proofs.Authority
import ShareVault.Proofs.Assets
import ShareVault.Proofs.Exact
import ShareVault.Proofs.Leaving
import ShareVault.Proofs.RecordStore
import ShareVault.Proofs.Unambiguous
import ShareVault.Proofs.ChargeEffect
import ShareVault.Proofs.JsonRoundTrip
import ShareVault.Proofs.JsonGrammar
import ShareVault.Proofs.JsonText
import ShareVault.Proofs.Recharge
import ShareVault.Proofs.Settlement
import ShareVault.Proofs.Growth
import ShareVault.Proofs.TwoPasses
import ShareVault.Proofs.AssetOrder
import ShareVault.Proofs.LargerOffer
import ShareVault.Proofs.ByteOrder
import ShareVault.Proofs.CanonicalConfig
import ShareVault.Proofs.SettingsText
import ShareVault.Proofs.Roles
import ShareVault.Proofs.Splitting
import ShareVault.Proofs.ShareMoves
import ShareVault.Proofs.Waiting
import ShareVault.Proofs.BasketValue
