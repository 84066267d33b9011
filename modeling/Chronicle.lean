import Chronicle.Datum.Json
import Chronicle.Dial.Draw
import Chronicle.Evaluation
import Chronicle.Form.Records
import Chronicle.Formula
import Chronicle.Level.Boolean
import Chronicle.Level.Game
import Chronicle.World.Call
import Chronicle.Proofs.Text.Numeral
import Chronicle.Proofs.Text.Quoted
import Chronicle.Proofs.Datum.Word
import Chronicle.Proofs.Decimal
import Chronicle.Proofs.Datum.Lexeme
import Chronicle.Proofs.Datum.Json
import Chronicle.Proofs.Valuation
import Chronicle.Proofs.Graph.Order
import Chronicle.Proofs.Catalogue.Closure
import Chronicle.Proofs.Graph.Valid
import Chronicle.Proofs.Completion.Fill
import Chronicle.Proofs.Completion.Model
import Chronicle.Proofs.Search.FlipSets
import Chronicle.Proofs.Search.Satisfiable
import Chronicle.Proofs.Formula.Locality
import Chronicle.Proofs.Period.Override
import Chronicle.Proofs.Arrival.Replay
import Chronicle.Proofs.Arrival.Fits
import Chronicle.Proofs.Period.Modify
import Chronicle.Proofs.World.Change
import Chronicle.Proofs.World.Journey
import Chronicle.Proofs.World.Reach
import Chronicle.Proofs.World.DryRun
import Chronicle.Proofs.World.Arrive
import Chronicle.Proofs.World.Return
import Chronicle.Proofs.Catalogue.Link
import Chronicle.Proofs.Graph.Closed
import Chronicle.Proofs.Dial.Digits
import Chronicle.Proofs.Completion.Evaluate
import Chronicle.Proofs.Search.Solve
import Chronicle.Proofs.Period.Ledger
import Chronicle.Proofs.Period.Span
import Chronicle.Proofs.World.Operate
import Chronicle.Proofs.World.Plain
import Chronicle.Proofs.Arrival.Blank
import Chronicle.Proofs.Period.Leaving
import Chronicle.Proofs.World.Carry
import Chronicle.Proofs.World.Coherent
import Chronicle.Proofs.World.Readable
import Chronicle.Proofs.Search.Least
import Chronicle.Proofs.Search.Unpruned
import Chronicle.Proofs.Search.Learned
import Chronicle.Proofs.World.Refusal
import Chronicle.Proofs.Period.Patch
import Chronicle.Proofs.World.History
import Chronicle.Proofs.World.Look
import Chronicle.Proofs.Period.Watch
import Chronicle.Proofs.World.Permanent
import Chronicle.Proofs.Arrival.Correct
import Chronicle.Proofs.Completion.Graft
import Chronicle.Proofs.World.Reconcile
import Chronicle.Proofs.World.Reconciled
import Chronicle.Proofs.Arrival.Again
import Chronicle.Proofs.World.Reliance
import Chronicle.Proofs.Search.Fenced
import Chronicle.Proofs.World.Lever
import Chronicle.Proofs.Period.Latch
import Chronicle.Proofs.World.Irrevocable
import Chronicle.Proofs.World.Repeat
import Chronicle.Proofs.World.Firings
import Chronicle.Proofs.World.Account
import Chronicle.Proofs.Completion.Unique
import Chronicle.Proofs.Search.Enumerate
import Chronicle.Proofs.Search.Aside
import Chronicle.Proofs.World.Examine
import Chronicle.Proofs.World.Hold
import Chronicle.Proofs.World.Failure
import Chronicle.Proofs.Completion.Observe
import Chronicle.Proofs.Search.Forget
import Chronicle.Proofs.Search.Reorder
import Chronicle.Proofs.Graph.Rounds
import Chronicle.Proofs.Graph.Ancestry
import Chronicle.Proofs.Dial.Encoding
import Chronicle.Proofs.Graph.Dials
import Chronicle.Proofs.World.Dialling
import Chronicle.Proofs.Level.Tour
import Chronicle.Proofs.Period.Trust
import Chronicle.Proofs.World.Corrections
