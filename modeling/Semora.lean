import Semora.Lib.Dict
import Semora.Lib.Safety
import Semora.Store.Calls
import Semora.Proofs.Fencing
import Semora.Effects.Keys
import Semora.Proofs.Permanence
import Semora.Json
import Semora.Messages
import Semora.Transcript.Entries
import Semora.Controls
import Semora.Transcript.Store
import Semora.World
import Semora.Transcript.Writer
import Semora.Effects.Boundary
import Semora.Effects.Turn
import Semora.Graph
import Semora.Runtime.Attempt
import Semora.Runtime.Dispatch
import Semora.Lib.Machine
import Semora.Proofs.AtMostOnce
import Semora.Proofs.InDoubt
import Semora.Proofs.Performs
import Semora.Proofs.RunRecord
import Semora.Proofs.ParkSurvives
import Semora.Lib.Succession
import Semora.Proofs.Prefix
import Semora.Proofs.Isolation
import Semora.Proofs.ForkRetry
import Semora.Store.Branches
import Semora.Proofs.Inputs
import Semora.Proofs.Table
import Semora.Proofs.Permitted
import Semora.Proofs.Own
import Semora.Proofs.LeaseHolder
import Semora.Proofs.Identity
import Semora.Lib.ReadCommitted
import Semora.Store.Postgres
import Semora.Proofs.Transactions
import Semora.Proofs.Coordinates
import Semora.Proofs.Course
import Semora.Proofs.ForkFrame
import Semora.Proofs.Scopes
import Semora.Proofs.ScopedState
import Semora.Lib.Refusal
import Semora.Proofs.Refused
import Semora.Proofs.Closing
import Semora.Proofs.Takeover
import Semora.Proofs.Successor
import Semora.Lib.Leave
import Semora.Proofs.Regated
import Semora.Proofs.LastWord
import Semora.Proofs.Operations
import Semora.Proofs.Transition
import Semora.Proofs.Told
import Semora.Proofs.Cursor
import Semora.Lib.Alone
import Semora.Store.Tables
import Semora.Proofs.SameCoordinate
import Semora.Proofs.Conformance
import Semora.Lib.Generations
import Semora.Proofs.Projection
import Semora.Lib.Phases
import Semora.Proofs.OneChannel
import Semora.Proofs.Overtaken
import Semora.Lib.Trace
import Semora.Proofs.Answers
import Semora.Proofs.Resolution
import Semora.Proofs.Behind
import Semora.Proofs.Context
import Semora.Lib.Interpret
import Semora.Runtime.Router
import Semora.Proofs.OneScope
import Semora.Proofs.Forgotten
import Semora.Proofs.Usage
import Semora.Proofs.Calm
import Semora.Proofs.Counting
import Semora.Transcript.Records
import Semora.Proofs.Stores
import Semora.Proofs.Answering
import Semora.Proofs.Batch
import Semora.Lib.Weave
import Semora.Lib.Compositional
import Semora.Proofs.Throughout
import Semora.Proofs.Order
import Semora.Proofs.Mediated
import Semora.Proofs.Turns
import Semora.Proofs.Fates
import Semora.Proofs.OneWriter
import Semora.Lib.Rows
import Semora.Proofs.Committed
import Semora.Lib.Round
import Semora.Proofs.Life
import Semora.Proofs.Provenance
import Semora.Lib.Chain
import Semora.Planes
import Semora.Proofs.Composed
import Semora.Lib.Returned
