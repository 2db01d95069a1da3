import Idl.Command.Basic
import Idl.Command.Help
import Idl.Command.Program
import Idl.Compilation.Basic
import Idl.Compilation.Compile
import Idl.Compilation.Declare
import Idl.Declaration.Basic
import Idl.Declaration.Rendering
import Idl.Defines
import Idl.Diagnostic.Basic
import Idl.Diagnostic.Ink
import Idl.Diagnostic.Snippet
import Idl.Error
import Idl.Item.Basic
import Idl.Item.Cursor
import Idl.Item.Members
import Idl.Item.Reader
import Idl.Log
import Idl.Main
import Idl.Output.Basic
import Idl.Output.Batch
import Idl.Output.Placement
import Idl.Path.Basic
import Idl.Path.Normal
import Idl.Path.Table
import Idl.Run
import Idl.ScriptType
import Idl.Source.Library
import Idl.Source.Range
import Idl.Storage.Basic
import Idl.Storage.Disk
import Idl.Storage.Place
import Idl.Storage.Store
import Idl.Symbol
import Idl.SymbolTable
import Idl.Text.Blank
import Idl.Text.Bytes
import Idl.Text.Control
import Idl.Text.EditDistance
import Idl.Text.Letter
import Idl.Text.Rope
import Idl.Text.Width
import Idl.Token.Basic
import Idl.Token.Lexer
import Idl.TypeText
import Idl.Proofs.Steps
import Idl.Proofs.Trace
import Idl.Proofs.Items
import Idl.Proofs.Paths
import Idl.Proofs.Targets
import Idl.Proofs.Batches
import Idl.Proofs.Sessions
import Idl.Proofs.Stores
import Idl.Proofs.Declaring
import Idl.Proofs.Pieces
import Idl.Proofs.Imports
import Idl.Proofs.Guards
import Idl.Proofs.Comments
import Idl.Proofs.Rendering
import Idl.Proofs.Integrity
import Idl.Proofs.Readers
import Idl.Proofs.Endings
import Idl.Proofs.Includes
import Idl.Proofs.Saving
import Idl.Proofs.Reruns
import Idl.Proofs.Erasure
import Idl.Proofs.Alike
import Idl.Proofs.Grammar
import Idl.Proofs.Parsing
import Idl.Proofs.Accepting
import Idl.Proofs.Lexing
import Idl.Proofs.Meanings
import Idl.Proofs.Quotes
import Idl.Proofs.Origins
import Idl.Proofs.Places
import Idl.Proofs.Hoisting
import Idl.Proofs.Conservation
import Idl.Proofs.Modules
import Idl.Proofs.Bounds
import Idl.Proofs.Tokenization
import Idl.Proofs.Mirrors
import Idl.Proofs.Transfers
import Idl.Proofs.Prepending
import Idl.Proofs.Unrelated
import Idl.Proofs.Directories
import Idl.Proofs.Relocations
import Idl.Proofs.Specifiers
import Idl.Proofs.Positions
import Idl.Proofs.TypeWords
import Idl.Proofs.Values
import Idl.Proofs.Resolution
import Idl.Proofs.Registrations
import Idl.Proofs.Spellings
import Idl.Proofs.Walks
import Idl.Proofs.Following
import Idl.Proofs.IncludeGuards
import Idl.Proofs.Edits
import Idl.Proofs.Suggestions
import Idl.Proofs.Interleavings
import Idl.Proofs.Stacks
