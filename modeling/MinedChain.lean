import MinedChain.Command
import MinedChain.Edit
import MinedChain.Hasher.Fold
import MinedChain.Main
import MinedChain.Proofs.LowestInRange
import MinedChain.Proofs.Attempts
import MinedChain.Proofs.Mining
import MinedChain.Proofs.Calls
import MinedChain.Proofs.History
import MinedChain.Proofs.SearchChoice
import MinedChain.Proofs.Binding
import MinedChain.Proofs.Building
import MinedChain.Proofs.SequentialSearch
import MinedChain.Proofs.SealedDigest
import MinedChain.Proofs.FirstViolation
import MinedChain.Proofs.Splicing
import MinedChain.Proofs.Replacement
import MinedChain.Proofs.SearchBound
import MinedChain.Proofs.GreatestNonce
import MinedChain.Proofs.Rearrangement
import MinedChain.Proofs.FieldEdit
import MinedChain.Proofs.Json.Numbers
import MinedChain.Proofs.Monotonicity
import MinedChain.Proofs.Json.Strings
import MinedChain.Proofs.Json.Listings
import MinedChain.Proofs.Json.Skipping
import MinedChain.Proofs.Json.Records
import MinedChain.Proofs.BlockText
import MinedChain.Proofs.SettingsText
import MinedChain.Proofs.CommandLine
import MinedChain.Proofs.PlainText
import MinedChain.Proofs.RowText
import MinedChain.Proofs.HonestRun
import MinedChain.Proofs.Tampering
import MinedChain.Proofs.Stages
import MinedChain.Proofs.FirstFailure
import MinedChain.Proofs.LeadingZeros
import MinedChain.Proofs.RaisedDifficulty
import MinedChain.Proofs.SearchEvents
import MinedChain.Proofs.TamperedRun
import MinedChain.Proofs.Refusals
import MinedChain.Proofs.Naming
import MinedChain.Proofs.Counters
