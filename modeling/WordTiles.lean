import WordTiles.Board.Lemmas
import WordTiles.Encoding.Board
import WordTiles.Encoding.Config
import WordTiles.Encoding.Event
import WordTiles.Encoding.Level
import WordTiles.Encoding.Rule
import WordTiles.Game
import WordTiles.Proofs.Game.Run
import WordTiles.Proofs.Game.Replay
import WordTiles.Proofs.Capability
import WordTiles.Proofs.Game.Stillness
import WordTiles.Proofs.Game.Identity
import WordTiles.Proofs.Board.Reordering
import WordTiles.Proofs.Move.Reordering
import WordTiles.Proofs.Game.Reordering
import WordTiles.Proofs.Rule.Grammar
import WordTiles.Proofs.Rule.Errors
import WordTiles.Proofs.Board.Reading
import WordTiles.Proofs.Game.Ending
import WordTiles.Proofs.Game.Text
import WordTiles.Proofs.Game.Settings
import WordTiles.Proofs.Board.Symmetry
import WordTiles.Proofs.Move.Symmetry
import WordTiles.Proofs.Board.Transpose
import WordTiles.Proofs.Game.Transpose
import WordTiles.Proofs.Board.Renaming
import WordTiles.Proofs.Move.Renaming
import WordTiles.Proofs.Game.Renaming
import WordTiles.Proofs.Board.Editing
import WordTiles.Proofs.Board.Operations
import WordTiles.Proofs.Json.RoundTrip
import WordTiles.Proofs.Json.Change
import WordTiles.Proofs.Encoding.Board
import WordTiles.Proofs.Encoding.Event
import WordTiles.Proofs.Encoding.Level
import WordTiles.Proofs.Level
import WordTiles.Proofs.Level.Fault
import WordTiles.Proofs.Move.Reflection
import WordTiles.Proofs.Move.Stale
import WordTiles.Proofs.Move.Walk
import WordTiles.Proofs.Substitution
import WordTiles.Proofs.Board.Fault
import WordTiles.Proofs.Board.Machine
import WordTiles.Proofs.CoordinateRange
import WordTiles.Proofs.Granting
import WordTiles.Proofs.Outcome
import WordTiles.Proofs.Board.Addressing
import WordTiles.Proofs.View
import WordTiles.Proofs.Board.Runs
