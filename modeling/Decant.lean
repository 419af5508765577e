import Decant.Catalog
import Decant.Catalog.EntryRoutines
import Decant.Catalog.Unruly
import Decant.Derive.Expansion
import Decant.Source.Cursor
import Decant.Source.Peeked
import Decant.Source.Recorded
import Decant.Source.Script
import Decant.Stream
import Decant.Proofs.Filling
import Decant.Proofs.Compiling
import Decant.Proofs.Likeness
import Decant.Proofs.Direct
import Decant.Proofs.Cache
import Decant.Proofs.Obeying
import Decant.Proofs.Contract
import Decant.Proofs.OneWalk
import Decant.Proofs.Enough
import Decant.Proofs.Alignment
import Decant.Proofs.Blind
import Decant.Proofs.EitherWay
import Decant.Proofs.TwoStages
import Decant.Proofs.FailFast
import Decant.Proofs.TwoDestinations
import Decant.Proofs.Indifference
import Decant.Proofs.Traces
import Decant.Proofs.Moves
import Decant.Proofs.Remains
import Decant.Proofs.Framing
import Decant.Proofs.ItemByItem
import Decant.Proofs.EndSignals
import Decant.Proofs.Session
import Decant.Proofs.Whole
import Decant.Proofs.RoundTrip
import Decant.Proofs.Derivation
import Decant.Proofs.SameData.Values
import Decant.Proofs.SameData.SideBySide
import Decant.Proofs.SameData.Strategies
import Decant.Proofs.SameData.Routines
import Decant.Proofs.SameData.Decoding
import Decant.Proofs.KeyLaws
import Decant.Proofs.Merging
import Decant.Proofs.MapKinds
import Decant.Proofs.Reordering
import Decant.Proofs.ByRule
import Decant.Proofs.Again
import Decant.Proofs.SameReport
import Decant.Proofs.Callbacks
import Decant.Proofs.TakenOver
import Decant.Proofs.Nil
import Decant.Proofs.Slots
import Decant.Proofs.Peeking
import Decant.Proofs.History
import Decant.Proofs.Groups
import Decant.Proofs.Words
import Decant.Proofs.Ranges
import Decant.Proofs.AnyCalls
import Decant.Proofs.Spending
