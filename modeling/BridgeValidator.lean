import BridgeValidator.Adjudication
import BridgeValidator.Attestations
import BridgeValidator.Backlog
import BridgeValidator.BeaconFormat
import BridgeValidator.Crashes
import BridgeValidator.CursorCoverage
import BridgeValidator.Delivery
import BridgeValidator.Environment
import BridgeValidator.FinalLogs
import BridgeValidator.ForeignLeg
import BridgeValidator.IndexerLosses
import BridgeValidator.Ledger
import BridgeValidator.Lifetimes
import BridgeValidator.Orphans
import BridgeValidator.PendingRows
import BridgeValidator.ProcessorOutcomes
import BridgeValidator.Provenance
import BridgeValidator.Reindexing
import BridgeValidator.Reorgs
import BridgeValidator.Resolution
import BridgeValidator.RetryCeiling
import BridgeValidator.SafeProbe
import BridgeValidator.SafeSupport
import BridgeValidator.Settlement
import BridgeValidator.Shutdown
import BridgeValidator.SignatureCount
import BridgeValidator.StageResumption
import BridgeValidator.Supply
import BridgeValidator.Transactions
import BridgeValidator.Verdicts
import BridgeValidator.Vigilance
import BridgeValidator.Wiring
