import WasmEmbed.Binding.Edit
import WasmEmbed.Binding.Error
import WasmEmbed.Binding.Import
import WasmEmbed.Binding.Loader
import WasmEmbed.Binding.Rewrite
import WasmEmbed.Build.Basic
import WasmEmbed.Build.Bundle
import WasmEmbed.Build.Notice
import WasmEmbed.Build.Shards
import WasmEmbed.CommandLine.Error
import WasmEmbed.CommandLine.Help
import WasmEmbed.CommandLine.Invocation
import WasmEmbed.CommandLine.Run
import WasmEmbed.CommandLine.Switch
import WasmEmbed.CommandLine.Word
import WasmEmbed.Config
import WasmEmbed.Main
import WasmEmbed.Path.Basic
import WasmEmbed.Path.Relative
import WasmEmbed.Payload.Base64
import WasmEmbed.Payload.Bits
import WasmEmbed.Payload.Checksum
import WasmEmbed.Payload.Deflate.Block
import WasmEmbed.Payload.Deflate.Code
import WasmEmbed.Payload.Deflate.Huffman
import WasmEmbed.Payload.Deflate.Inflate
import WasmEmbed.Payload.Deflate.Match
import WasmEmbed.Payload.Deflate.Repeat
import WasmEmbed.Payload.Deflate.Stream
import WasmEmbed.Payload.Deflate.Token
import WasmEmbed.Payload.Encoding
import WasmEmbed.Proofs.Binding.Again
import WasmEmbed.Proofs.Binding.AtOnce
import WasmEmbed.Proofs.Binding.Bindings
import WasmEmbed.Proofs.Binding.BoundNames
import WasmEmbed.Proofs.Binding.Capture
import WasmEmbed.Proofs.Binding.Chain
import WasmEmbed.Proofs.Binding.DecodedName
import WasmEmbed.Proofs.Binding.Decodes
import WasmEmbed.Proofs.Binding.Edit
import WasmEmbed.Proofs.Binding.Edits
import WasmEmbed.Proofs.Binding.Frame
import WasmEmbed.Proofs.Binding.Functions
import WasmEmbed.Proofs.Binding.ImportLine
import WasmEmbed.Proofs.Binding.Imports
import WasmEmbed.Proofs.Binding.Loader
import WasmEmbed.Proofs.Binding.Moved
import WasmEmbed.Proofs.Binding.Prepended
import WasmEmbed.Proofs.Binding.Retarget
import WasmEmbed.Proofs.Binding.Returns
import WasmEmbed.Proofs.Binding.Rewriting
import WasmEmbed.Proofs.Binding.Segment
import WasmEmbed.Proofs.Binding.Sites
import WasmEmbed.Proofs.Build.Bundle
import WasmEmbed.Proofs.Build.Counts
import WasmEmbed.Proofs.Build.Directories
import WasmEmbed.Proofs.Build.Effect
import WasmEmbed.Proofs.Build.Embed
import WasmEmbed.Proofs.Build.Heard
import WasmEmbed.Proofs.Build.Inputs
import WasmEmbed.Proofs.Build.Recovery
import WasmEmbed.Proofs.Build.Refusal
import WasmEmbed.Proofs.Build.Run
import WasmEmbed.Proofs.Build.Scripts
import WasmEmbed.Proofs.Build.Shards
import WasmEmbed.Proofs.Build.Steps
import WasmEmbed.Proofs.Build.Successive
import WasmEmbed.Proofs.Build.Twice
import WasmEmbed.Proofs.CommandLine.Items
import WasmEmbed.Proofs.CommandLine.Verbosity
import WasmEmbed.Proofs.CommandLine.Wishes
import WasmEmbed.Proofs.Path.Place
import WasmEmbed.Proofs.Path.Relative
import WasmEmbed.Proofs.Path.Specifier
import WasmEmbed.Proofs.Payload.Accepted
import WasmEmbed.Proofs.Payload.Base64
import WasmEmbed.Proofs.Payload.Bits
import WasmEmbed.Proofs.Payload.Deflate.Block
import WasmEmbed.Proofs.Payload.Deflate.Code
import WasmEmbed.Proofs.Payload.Deflate.Coded
import WasmEmbed.Proofs.Payload.Deflate.Complete
import WasmEmbed.Proofs.Payload.Deflate.Depth
import WasmEmbed.Proofs.Payload.Deflate.Description
import WasmEmbed.Proofs.Payload.Deflate.Front
import WasmEmbed.Proofs.Payload.Deflate.Huffman
import WasmEmbed.Proofs.Payload.Deflate.Match
import WasmEmbed.Proofs.Payload.Deflate.Reader
import WasmEmbed.Proofs.Payload.Deflate.Repeat
import WasmEmbed.Proofs.Payload.Deflate.Stream
import WasmEmbed.Proofs.Payload.Deflate.Token
import WasmEmbed.Proofs.Payload.RoundTrip
import WasmEmbed.Proofs.Payload.Truncation
import WasmEmbed.Proofs.Request.Root
import WasmEmbed.Proofs.Script.Cursor
import WasmEmbed.Proofs.Script.Fits
import WasmEmbed.Proofs.Script.Forward.Expression
import WasmEmbed.Proofs.Script.Forward.Function
import WasmEmbed.Proofs.Script.Forward.Markup
import WasmEmbed.Proofs.Script.Forward.Nested
import WasmEmbed.Proofs.Script.Gap
import WasmEmbed.Proofs.Script.Heading
import WasmEmbed.Proofs.Script.Import
import WasmEmbed.Proofs.Script.Kept.Import
import WasmEmbed.Proofs.Script.Kept.Reader
import WasmEmbed.Proofs.Script.Kept.Statement
import WasmEmbed.Proofs.Script.Kept.Token
import WasmEmbed.Proofs.Script.Lexeme
import WasmEmbed.Proofs.Script.Moved.Collection
import WasmEmbed.Proofs.Script.Moved.Declaration
import WasmEmbed.Proofs.Script.Moved.Expression
import WasmEmbed.Proofs.Script.Moved.Function
import WasmEmbed.Proofs.Script.Moved.Gap
import WasmEmbed.Proofs.Script.Moved.Markup
import WasmEmbed.Proofs.Script.Moved.Nested
import WasmEmbed.Proofs.Script.Moved.Reader
import WasmEmbed.Proofs.Script.Moved.Statement
import WasmEmbed.Proofs.Script.Moved.Token
import WasmEmbed.Proofs.Script.Name
import WasmEmbed.Proofs.Script.Prepended
import WasmEmbed.Proofs.Script.Quoted
import WasmEmbed.Proofs.Script.Read
import WasmEmbed.Proofs.Script.Reader
import WasmEmbed.Proofs.Script.Statement
import WasmEmbed.Proofs.Script.Token
import WasmEmbed.Proofs.Script.Written.Expression
import WasmEmbed.Proofs.Script.Written.Refused
import WasmEmbed.Proofs.Script.Written.Single
import WasmEmbed.Proofs.Script.Written.Statement
import WasmEmbed.Proofs.Script.Written.Token
import WasmEmbed.Proofs.Script.Yields
import WasmEmbed.Proofs.Shard.Assembly
import WasmEmbed.Proofs.Shard.Chunk
import WasmEmbed.Proofs.Shard.Module
import WasmEmbed.Proofs.Shard.Name
import WasmEmbed.Proofs.Shard.Script
import WasmEmbed.Proofs.Store.Change
import WasmEmbed.Proofs.Text.Integer
import WasmEmbed.Proofs.Text.LineEnd
import WasmEmbed.Proofs.Text.Utf8
import WasmEmbed.Script.Blank
import WasmEmbed.Script.Block
import WasmEmbed.Script.Climb
import WasmEmbed.Script.Collection
import WasmEmbed.Script.Cursor
import WasmEmbed.Script.Expression
import WasmEmbed.Script.Function
import WasmEmbed.Script.Gap
import WasmEmbed.Script.Markup
import WasmEmbed.Script.Nested
import WasmEmbed.Script.Operator
import WasmEmbed.Script.Outline
import WasmEmbed.Script.Read
import WasmEmbed.Script.Semicolon
import WasmEmbed.Script.Shape
import WasmEmbed.Script.Statement
import WasmEmbed.Script.Token
import WasmEmbed.Shard
import WasmEmbed.Store.Basic
import WasmEmbed.Text.Digit
import WasmEmbed.Text.Escape
import WasmEmbed.Text.LineEnd
import WasmEmbed.Text.Printable
import WasmEmbed.Text.Quoted
import WasmEmbed.Text.Utf8
