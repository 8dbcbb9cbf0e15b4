import TcpStreams.Session
import TcpStreams.Session.Queued
import TcpStreams.Proofs.Spread
import TcpStreams.Proofs.Precedence
import TcpStreams.Proofs.Moves
import TcpStreams.Proofs.Tidy
import TcpStreams.Proofs.Relief
import TcpStreams.Proofs.Requests
import TcpStreams.Proofs.Cells
import TcpStreams.Proofs.Working
import TcpStreams.Proofs.Placing
import TcpStreams.Proofs.Fitting
import TcpStreams.Proofs.History
import TcpStreams.Proofs.Upheld
import TcpStreams.Proofs.Halves
import TcpStreams.Proofs.Ordering
import TcpStreams.Proofs.Storing
import TcpStreams.Proofs.Markers
import TcpStreams.Proofs.Ledger
import TcpStreams.Proofs.Conservation
import TcpStreams.Proofs.Room
import TcpStreams.Proofs.Seamless
import TcpStreams.Proofs.Formed
import TcpStreams.Proofs.Granted
import TcpStreams.Proofs.Retained
import TcpStreams.Proofs.Conflicts
import TcpStreams.Proofs.Releases
import TcpStreams.Proofs.Accounts
import TcpStreams.Proofs.Flowing
import TcpStreams.Proofs.Runs
import TcpStreams.Proofs.Arrangement
import TcpStreams.Proofs.Turns
import TcpStreams.Proofs.Kinship
import TcpStreams.Proofs.Calls
import TcpStreams.Proofs.Recency
import TcpStreams.Proofs.Trades
import TcpStreams.Proofs.Possession
import TcpStreams.Proofs.Rolls
import TcpStreams.Proofs.Lifecycle
import TcpStreams.Proofs.ShiftedWork
import TcpStreams.Proofs.Translation
import TcpStreams.Proofs.Admission
import TcpStreams.Proofs.Courses
import TcpStreams.Proofs.Separation
import TcpStreams.Proofs.Shifts
import TcpStreams.Proofs.Evictions
import TcpStreams.Proofs.Exchanges
import TcpStreams.Proofs.Replies
import TcpStreams.Proofs.Recovery
import TcpStreams.Proofs.Losses
import TcpStreams.Proofs.Breakdowns
import TcpStreams.Proofs.Refusals
import TcpStreams.Proofs.Visits
import TcpStreams.Proofs.Flushing
import TcpStreams.Proofs.Ageing
import TcpStreams.Proofs.Lifetimes
import TcpStreams.Proofs.Limits
import TcpStreams.Proofs.Frames
import TcpStreams.Proofs.Repeats
import TcpStreams.Proofs.Activity
import TcpStreams.Proofs.Addressing
import TcpStreams.Proofs.Records
import TcpStreams.Proofs.Counting
import TcpStreams.Proofs.Safety
import TcpStreams.Proofs.Containment
