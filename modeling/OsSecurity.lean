import OsSecurity.Lib.Fips180
import OsSecurity.Theorems.Sha256
import OsSecurity.Theorems.MetadataFrame
import OsSecurity.Theorems.MetadataInvariant
import OsSecurity.Theorems.WriteGating
import OsSecurity.Theorems.ReadConfidentiality
import OsSecurity.Theorems.Confinement
import OsSecurity.Theorems.EncryptDecrypt
import OsSecurity.Theorems.AppendRead
import OsSecurity.Theorems.StoreRefinement
import OsSecurity.Theorems.AckedWrites
import OsSecurity.Theorems.WireRoundTrip
import OsSecurity.Theorems.ListBuffer
import OsSecurity.Theorems.Listing
import OsSecurity.Theorems.Isolation
import OsSecurity.Theorems.LruPolicy
import OsSecurity.Theorems.FifoPolicy
import OsSecurity.Theorems.Competitiveness
import OsSecurity.Theorems.HandOff
import OsSecurity.Theorems.Completion
import OsSecurity.Theorems.SequentialRounds
import OsSecurity.Theorems.Turnaround
import OsSecurity.Theorems.RaceDemo
import OsSecurity.Theorems.Deadlock
import OsSecurity.Theorems.Framing
import OsSecurity.Theorems.LineLimit
import OsSecurity.Theorems.Closing
import OsSecurity.Theorems.Lockstep
import OsSecurity.Theorems.Threads
import OsSecurity.Theorems.ThreadsProgress
import OsSecurity.Theorems.NetworkProgress
import OsSecurity.Theorems.Responses
import OsSecurity.Theorems.Service
import OsSecurity.Theorems.LowerBound
import OsSecurity.Theorems.Sessions
import OsSecurity.Theorems.Integrity
import OsSecurity.Theorems.ProgramRuns
import OsSecurity.Theorems.LongFields
import OsSecurity.Theorems.Accounts
import OsSecurity.Theorems.Journal
import OsSecurity.Theorems.AuditLines
import OsSecurity.Theorems.Overwrite
import OsSecurity.Theorems.Creation
import OsSecurity.Theorems.Atomicity
import OsSecurity.Theorems.Conservative
import OsSecurity.Theorems.NoFalseHits
import OsSecurity.Theorems.Addresses
import OsSecurity.Theorems.Belady
import OsSecurity.Theorems.Prompts
import OsSecurity.Theorems.Termination
import OsSecurity.Theorems.Passphrases
import OsSecurity.Theorems.DiskRefinement
